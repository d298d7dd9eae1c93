import LiveRules.Proofs.Load.Contexts
import LiveRules.Proofs.Load.Methods

/-!
Reports of loading. A unit that is resolved has an instance or fails for its bases, if it is not
left out; the methods of an instance have different names.
-/

namespace LiveRules

/-- The failures that come up along the bases of a unit. -/
inductive LoadError.IsOfBases : LoadError → Prop where
  | unresolvedBase (identifier base : String) : IsOfBases (.unresolvedBase identifier base)
  | cycle (identifier : String) : IsOfBases (.cycle identifier)

namespace Instance

variable {resolve : String → Except LoadError Artifact} {steps : Nat} {seen : List String}
variable {a : Artifact} {e : LoadError}

theorem isOfBases_of_chain (h : chain resolve steps seen a = .error e) : e.IsOfBases := by
  induction steps generalizing seen a with
  | zero => exact Except.error.inj h ▸ .cycle _
  | succ steps ih =>
    rw [chain_succ] at h
    split at h
    · exact Except.error.inj h ▸ .cycle _
    split at h
    · cases h
    split at h
    · exact Except.error.inj h ▸ .unresolvedBase _ _
    split at h
    · rename_i hrest
      obtain rfl := Except.error.inj h
      exact ih hrest
    · cases h

theorem chain_of_resolve {base : String} {b : Artifact} (hnew : seen.contains a.identifier = false)
    (hbase : a.extends? = some base) (hresolve : resolve base = .ok b)
    (hchain : chain resolve steps (a.identifier :: seen) b = .error e) :
    chain resolve (steps + 1) seen a = .error e := by
  simp only [chain_succ, hnew, Bool.false_eq_true, if_false, hbase, hresolve, hchain]

theorem chain_of_not_found {base : String} {err : LoadError}
    (hnew : seen.contains a.identifier = false) (hbase : a.extends? = some base)
    (hresolve : resolve base = .error err) :
    chain resolve (steps + 1) seen a = .error (.unresolvedBase a.identifier base) := by
  simp only [chain_succ, hnew, Bool.false_eq_true, if_false, hbase, hresolve]

/-- A base that is not found belongs to a unit that the chain has led to. -/
theorem exists_of_unresolvedBase {P : Artifact → Prop} {identifier base : String}
    (hnext : ∀ c, P c → ∀ base ∈ c.extends?, ∀ b, resolve base = .ok b → P b) (ha : P a)
    (h : chain resolve steps seen a = .error (.unresolvedBase identifier base)) :
    ∃ c, P c ∧ c.identifier = identifier ∧ c.extends? = some base ∧
      ∃ e, resolve base = .error e := by
  induction steps generalizing seen a with
  | zero => cases h
  | succ steps ih =>
    rw [chain_succ] at h
    split at h
    · cases h
    split at h
    · cases h
    rename_i base' hbase
    split at h
    · rename_i e he
      cases h
      exact ⟨a, ha, rfl, hbase, e, he⟩
    rename_i b hb
    split at h
    · rename_i hrest
      obtain rfl := Except.error.inj h
      exact ih (hnext a ha base' hbase b hb) hrest
    · cases h

end Instance

namespace LoadReport

variable {d : Disk} {cp : ClassPath} {base : String} {path : Path} {a : Artifact}

/-- What becomes of a unit: there is an instance of it, or there is none, and then it is left out or
its chain of bases has failed. -/
theorem ofUnit_cases (d : Disk) (cp : ClassPath) (path : Path) (a : Artifact) :
    (∃ i, cp.instantiate d a = .ok i ∧
      (ofUnit d cp path a).instances = [i] ∧ (ofUnit d cp path a).failed = []) ∨
    ((ofUnit d cp path a).instances = [] ∧ ∀ x ∈ (ofUnit d cp path a).failed,
      Instance.chain (cp.resolve d) (cp.unitBound d + 2) [] a = .error x.2) := by
  rw [ofUnit_eq]
  split
  · exact .inr ⟨rfl, fun _ hx => by cases hx⟩
  split
  · exact .inr ⟨rfl, fun _ hx => by cases hx⟩
  rename_i habstract hconstructible
  split
  · rename_i i hi
    exact .inl ⟨i, hi, rfl, rfl⟩
  · rename_i e he
    refine .inr ⟨rfl, fun x hx => ?_⟩
    obtain rfl := List.mem_singleton.mp hx
    rw [ClassPath.instantiate_eq, if_neg habstract, if_neg hconstructible] at he
    split at he
    · rename_i hchain
      rw [hchain, Except.error.inj he]
    · cases he

/-- A unit that is not found has not failed for its bases. -/
theorem not_isOfBases_of_resolveAt {e : LoadError} (h : resolveAt d cp base path = .error e) :
    ¬e.IsOfBases := by
  have hfind (name : String) {e : LoadError} (hfind : cp.find? d name = .error e) :
      ∃ cause, e = .artifact cause := by
    clear h
    induction cp with
    | nil => cases hfind
    | cons entry cp ih =>
      rw [ClassPath.find?] at hfind
      split at hfind
      · rename_i hentry
        obtain rfl := Except.error.inj hfind
        cases entry with
        | pack => cases hentry
        | folder =>
          rw [ClassPath.Entry.find?] at hentry
          split_ifs at hentry
          split at hentry
          · cases hentry
          · exact ⟨_, (Except.error.inj hentry).symm⟩
      · cases hfind
      · exact ih hfind
  rw [resolveAt] at h
  split at h
  · rintro hbases
    cases h
    cases hbases
  · rw [ClassPath.resolve] at h
    split at h
    · rename_i hsome
      obtain ⟨cause, rfl⟩ := hfind _ hsome
      rintro hbases
      cases h
      cases hbases
    · rintro hbases
      cases h
      cases hbases
    · cases h

theorem types_ofUnit : (ofUnit d cp path a).types = [] := by
  rw [ofUnit_eq]
  repeat' split
  all_goals rfl

/-- A resolved unit is reported with what becomes of it. -/
theorem ofPath_of_resolveAt (h : resolveAt d cp base path = .ok a) :
    (ofPath d cp base true path).types = [a] ∧
      (ofPath d cp base true path).instances = (ofUnit d cp path a).instances ∧
      (ofPath d cp base true path).failed = (ofUnit d cp path a).failed := by
  simp [ofPath_eq, h, append, types_ofUnit]

/-- A failure for the bases comes up along the chain of the unit at the path. -/
theorem chain_of_mem_failed {x : Path × LoadError}
    (hx : x ∈ (ofPath d cp base true path).failed) (hbases : x.2.IsOfBases) :
    ∃ a, resolveAt d cp base path = .ok a ∧
      Instance.chain (cp.resolve d) (cp.unitBound d + 2) [] a = .error x.2 := by
  cases hresolve : resolveAt d cp base path with
  | error e =>
    simp only [ofPath_eq, hresolve, List.mem_singleton] at hx
    subst hx
    exact absurd hbases (not_isOfBases_of_resolveAt hresolve)
  | ok a =>
    rw [(ofPath_of_resolveAt hresolve).2.2] at hx
    rcases ofUnit_cases d cp path a with ⟨i, -, -, hnone⟩ | ⟨-, hfailed⟩
    · rw [hnone] at hx
      cases hx
    · exact ⟨a, rfl, hfailed x hx⟩

/-! ### Folders -/

variable {folder : Path} {units : List Artifact} {file : Artifact → Path}

/-- A chain that fails is reported at the path of its first unit. -/
theorem mem_failed_of_chain {e : LoadError}
    (hpath : path ∈ d.collect folder Naming.artifactExtension)
    (hresolve : resolveAt d cp base path = .ok a) (habstract : a.isAbstract = false)
    (hconstructible : a.constructible = true)
    (hchain : Instance.chain (cp.resolve d) (cp.unitBound d + 2) [] a = .error e) :
    (path, e) ∈ (ofFolder d cp folder base true).failed := by
  rw [failed_ofFolder, List.mem_flatMap]
  refine ⟨path, hpath, ?_⟩
  rw [(ofPath_of_resolveAt hresolve).2.2, ofUnit_eq]
  simp [habstract, hconstructible, ClassPath.instantiate_eq, hchain]

/-- Units that are resolved are the types that are reported, and failures are those of bases. -/
theorem ofFolder_of_resolveAt
    (hcollect : d.collect folder Naming.artifactExtension = units.map file)
    (hresolve : ∀ a ∈ units, resolveAt d cp base (file a) = .ok a) :
    (ofFolder d cp folder base true).types = units ∧
      ∀ x ∈ (ofFolder d cp folder base true).failed, x.2.IsOfBases := by
  rw [ofFolder_eq, hcollect]
  simp only [concat, List.map_map, List.flatMap_map, Function.comp_apply]
  constructor
  · rw [List.flatMap_congr fun a ha => (ofPath_of_resolveAt (hresolve a ha)).1]
    exact List.flatMap_singleton' units
  · intro x hx
    obtain ⟨a, ha, hx⟩ := List.mem_flatMap.mp hx
    rw [(ofPath_of_resolveAt (hresolve a ha)).2.2] at hx
    rcases ofUnit_cases d cp (file a) a with
      ⟨i, -, -, hnone⟩ | ⟨-, hfailed⟩
    · rw [hnone] at hx
      cases hx
    · exact Instance.isOfBases_of_chain (hfailed x hx)

end LoadReport

/-! ### Firing -/

end LiveRules
