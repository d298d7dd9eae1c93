import LiveRules.Engine.Generation
import Mathlib.Data.List.Nodup
import Mathlib.Data.List.Perm.Subperm

/-!
Chains of bases. A unit is active when its chain of bases comes to an end; its rules are its own and
the inherited ones, and of two rules with one name the nearer one counts. The search for the end of
a chain is bounded, and every chain that has an end is found within the bound.
-/

namespace LiveRules

/-- The units from a unit up its bases to one without a base. -/
inductive Chain (find : String → Option Artifact) : Artifact → List Artifact → Prop where
  | last {a : Artifact} (h : a.extends? = none) : Chain find a [a]
  | step {a b : Artifact} {base : String} {chain : List Artifact} (h : a.extends? = some base)
      (hb : find base = some b) (hc : Chain find b chain) : Chain find a (a :: chain)

/-- The search for a chain, with look-ups that remember nothing. -/
def Instance.chain (resolve : String → Except LoadError Artifact) (steps : Nat)
    (seen : List String) (a : Artifact) : Except LoadError (List Artifact) :=
  (climb (fun name s => (resolve name, s)) steps seen a ()).1

variable {find : String → Option Artifact} {a b : Artifact} {chain chain' : List Artifact}

theorem Chain.unique (h : Chain find a chain) (h' : Chain find a chain') : chain' = chain := by
  induction h generalizing chain' with
  | last hnone =>
    cases h' with
    | last => rfl
    | step hsome =>
      rw [hnone] at hsome
      cases hsome
  | step hsome hb _ ih =>
    cases h' with
    | last hnone =>
      rw [hnone] at hsome
      cases hsome
    | step hsome' hb' hc' =>
      rw [hsome, Option.some.injEq] at hsome'
      subst hsome'
      rw [hb, Option.some.injEq] at hb'
      subst hb'
      rw [ih hc']

/-- Each unit of a chain has a chain of its own, the rest of it. -/
theorem Chain.of_mem (h : Chain find a chain) (hb : b ∈ chain) :
    ∃ rest, Chain find b rest ∧ rest <:+ chain := by
  induction h with
  | last hnone =>
    obtain rfl := List.mem_singleton.mp hb
    exact ⟨_, .last hnone, List.suffix_refl _⟩
  | @step a c base chain hsome hc hchain ih =>
    rcases List.mem_cons.mp hb with rfl | hb
    · exact ⟨_, .step hsome hc hchain, List.suffix_refl _⟩
    · obtain ⟨rest, hrest, hsuffix⟩ := ih hb
      exact ⟨rest, hrest, hsuffix.trans (List.suffix_cons a chain)⟩

/-- What is found under a name is stored under its own identifier. -/
def IsKeyed (find : String → Option Artifact) : Prop :=
  ∀ name a, find name = some a → a.identifier = name

/-- All units of a chain but the first are found under their identifiers. -/
theorem Chain.find_of_mem (hkeyed : IsKeyed find) (h : Chain find a chain)
    (ha : find a.identifier = some a) : ∀ b ∈ chain, find b.identifier = some b := by
  induction h with
  | last =>
    intro b hb
    rwa [List.mem_singleton.mp hb]
  | step hsome hb _ ih =>
    intro c hc
    rcases List.mem_cons.mp hc with rfl | hc
    · exact ha
    · exact ih (by rwa [hkeyed _ _ hb]) c hc

/-- No identifier comes twice in a chain: it would come up over and over again. -/
theorem Chain.nodup (hkeyed : IsKeyed find) (h : Chain find a chain)
    (ha : find a.identifier = some a) : (chain.map (·.identifier)).Nodup := by
  induction h with
  | last => exact List.nodup_singleton _
  | @step a b base chain hsome hb hchain ih =>
    have hfound : find b.identifier = some b := by rwa [hkeyed _ _ hb]
    rw [List.map_cons, List.nodup_cons]
    refine ⟨fun hmem => ?_, ih hfound⟩
    obtain ⟨c, hc, hca⟩ := List.mem_map.mp hmem
    have hcfound := hchain.find_of_mem hkeyed hfound c hc
    rw [hca, ha, Option.some.injEq] at hcfound
    subst hcfound
    obtain ⟨rest, hrest, hsuffix⟩ := hchain.of_mem hc
    rw [(Chain.step hsome hb hchain).unique hrest] at hsuffix
    exact absurd hsuffix.length_le (by simp)

/-! ### The search for a chain -/

namespace Instance

variable {resolve : String → Except LoadError Artifact} {steps : Nat} {seen : List String}

@[simp] theorem chain_zero :
    Instance.chain resolve 0 seen a = .error (.cycle a.identifier) := rfl

theorem chain_succ : Instance.chain resolve (steps + 1) seen a =
    if seen.contains a.identifier then .error (.cycle a.identifier)
    else
      match a.extends? with
      | none => .ok [a]
      | some base =>
        match resolve base with
        | .error _ => .error (.unresolvedBase a.identifier base)
        | .ok next =>
          match Instance.chain resolve steps (a.identifier :: seen) next with
          | .error e => .error e
          | .ok above => .ok (a :: above) := by
  rw [Instance.chain, climb]
  split
  · rfl
  cases a.extends? with
  | none => rfl
  | some base =>
    dsimp only
    cases resolve base with
    | error e => rfl
    | ok next =>
      dsimp only [Instance.chain]
      rcases climb (fun name s => (resolve name, s)) steps (a.identifier :: seen) next () with
        ⟨r, s⟩
      cases r <;> rfl

/-- A look-up that fails or finds what is there, for the bases of all units that it can lead to. -/
structure Follows (find : String → Option Artifact) (resolve : String → Except LoadError Artifact)
    (named : String → Prop) : Prop where
  toOption : ∀ name, named name → (resolve name).toOption = find name
  bases : ∀ name b, find name = some b → ∀ base ∈ b.extends?, named base

/-- The search ends with the chain if it is not longer than the bound and no identifier repeats. -/
theorem chain_eq_ok_iff {named : String → Prop} (hfollows : Follows find resolve named)
    (ha : ∀ base ∈ a.extends?, named base) : Instance.chain resolve steps seen a = .ok chain ↔
      Chain find a chain ∧ chain.length ≤ steps ∧ (chain.map (·.identifier)).Nodup ∧
        ∀ b ∈ chain, b.identifier ∉ seen := by
  induction steps generalizing a seen chain with
  | zero =>
    simp only [chain_zero, reduceCtorEq, false_iff, not_and]
    intro hchain hlength
    cases hchain <;> simp at hlength
  | succ steps ih =>
    rw [chain_succ]
    by_cases hseen : seen.contains a.identifier = true
    · rw [if_pos hseen]
      simp only [reduceCtorEq, false_iff, not_and]
      intro hchain _ _ hnew
      refine hnew a ?_ (List.contains_iff_mem.mp hseen)
      cases hchain <;> exact List.mem_cons_self
    · have hnew : a.identifier ∉ seen := fun h => hseen (List.contains_iff_mem.mpr h)
      rw [if_neg hseen]
      cases hextends : a.extends? with
      | none =>
        simp only [Except.ok.injEq]
        constructor
        · rintro rfl
          exact ⟨.last hextends, by simp, List.nodup_singleton _, by simpa using hnew⟩
        · rintro ⟨hchain, -⟩
          exact ((Chain.last hextends).unique hchain).symm
      | some base =>
        have hbase := hfollows.toOption base (ha base hextends)
        cases hresolve : resolve base with
        | error e =>
          simp only [hresolve, reduceCtorEq, false_iff, not_and]
          intro hchain
          rw [hresolve] at hbase
          cases hchain with
          | last hnone =>
            rw [hnone] at hextends
            cases hextends
          | step hsome hb =>
            rw [hextends, Option.some.injEq] at hsome
            rw [← hsome, ← hbase] at hb
            cases hb
        | ok b =>
          rw [hresolve] at hbase
          have hb : find base = some b := hbase.symm
          have hrest (rest : List Artifact) := @ih b rest (a.identifier :: seen)
            (hfollows.bases base b hb)
          simp only [List.mem_cons, not_or] at hrest
          simp only [hresolve]
          constructor
          · intro h
            cases hsearch : Instance.chain resolve steps (a.identifier :: seen) b with
            | error e => simp [hsearch] at h
            | ok rest =>
              simp only [hsearch, Except.ok.injEq] at h
              subst h
              obtain ⟨hchain, hlength, hnodup, hall⟩ := (hrest rest).mp hsearch
              refine ⟨.step hextends hb hchain, Nat.succ_le_succ hlength, ?_, ?_⟩
              · rw [List.map_cons, List.nodup_cons]
                refine ⟨fun hmem => ?_, hnodup⟩
                obtain ⟨c, hc, hca⟩ := List.mem_map.mp hmem
                exact (hall c hc).1 hca
              · intro c hc
                rcases List.mem_cons.mp hc with rfl | hc
                · exact hnew
                · exact (hall c hc).2
          · rintro ⟨hchain, hlength, hnodup, hall⟩
            cases hchain with
            | last hnone =>
              rw [hnone] at hextends
              cases hextends
            | @step _ c base' rest hsome hc hchain =>
              rw [hextends, Option.some.injEq] at hsome
              subst hsome
              rw [hb, Option.some.injEq] at hc
              subst hc
              rw [List.map_cons, List.nodup_cons] at hnodup
              have hsearch := (hrest rest).mpr ⟨hchain, Nat.le_of_succ_le_succ hlength, hnodup.2,
                fun c hc => ⟨fun he => hnodup.1 (he ▸ List.mem_map_of_mem hc),
                  hall c (List.mem_cons_of_mem a hc)⟩⟩
              simp only [hsearch]

end Instance

/-- The instance of a unit has the methods of its chain. -/
theorem ClassPath.instantiate_eq (d : Disk) (cp : ClassPath) (a : Artifact) :
    cp.instantiate d a =
      if a.isAbstract then .error (.isAbstract a.identifier)
      else if !a.constructible then .error (.noConstructor a.identifier)
      else
        match Instance.chain (cp.resolve d) (cp.unitBound d + 2) [] a with
        | .error e => .error e
        | .ok units => .ok ⟨a, Instance.methodsOf units⟩ := by
  rw [instantiate, Finder.create, Instance.chain, finder, Finder.plain]
  split
  · rfl
  split
  · rfl
  dsimp only
  rcases Instance.climb (fun name s => (cp.resolve d name, s)) (cp.unitBound d + 2) [] a () with
    ⟨r, s⟩
  cases r <;> rfl

/-! ### Rules along a chain -/

/-- The first method of each name, in order. -/
def nearest : List Method → List Method
  | [] => []
  | m :: ms => m :: (nearest ms).filter fun x => x.name ≠ m.name

theorem nearest_filter (name : String) (ms : List Method) :
    nearest (ms.filter fun x => x.name ≠ name) = (nearest ms).filter fun x => x.name ≠ name := by
  induction ms with
  | nil => rfl
  | cons m ms ih =>
    by_cases hm : m.name = name
    · rw [List.filter_cons_of_neg (by simpa using hm), ih, nearest,
        List.filter_cons_of_neg (by simpa using hm), hm, List.filter_filter]
      simp
    · rw [List.filter_cons_of_pos (by simpa using hm), nearest, nearest,
        List.filter_cons_of_pos (by simpa using hm), ih, List.filter_comm]

namespace Instance

/-- Methods are added when their names are new. -/
theorem addMethods_eq (own more : List Method) : addMethods own more =
    own ++ nearest (more.filter fun m => m.name ∉ own.map (·.name)) := by
  induction more generalizing own with
  | nil => simp [addMethods, nearest]
  | cons m more ih =>
    have hstep : addMethods own (m :: more) =
        addMethods (if own.any fun x => x.name == m.name then own else own ++ [m]) more := rfl
    by_cases hm : m.name ∈ own.map (·.name)
    · have hany : (own.any fun x => x.name == m.name) = true := by
        obtain ⟨x, hx, hxm⟩ := List.mem_map.mp hm
        exact List.any_eq_true.mpr ⟨x, hx, by simpa using hxm⟩
      rw [hstep, if_pos hany, ih, List.filter_cons_of_neg (by simpa using hm)]
    · have hany : (own.any fun x => x.name == m.name) = false := by
        rw [List.any_eq_false]
        exact fun x hx hxm => hm (List.mem_map.mpr ⟨x, hx, by simpa using hxm⟩)
      rw [hstep, hany, if_neg Bool.false_ne_true, ih, List.filter_cons_of_pos (by simpa using hm),
        nearest, List.append_assoc, List.singleton_append, ← nearest_filter, List.filter_filter]
      congr 4
      funext x
      simp only [List.map_append, List.mem_append, List.map_cons, List.map_nil,
        List.mem_singleton, not_or, ne_eq, Bool.decide_and, Bool.and_comm]

theorem nearest_append (xs ys : List Method) : nearest (xs ++ ys) =
    nearest xs ++ nearest (ys.filter fun m => m.name ∉ (nearest xs).map (·.name)) := by
  induction xs with
  | nil => simp [nearest]
  | cons x xs ih =>
    rw [List.cons_append, nearest, ih, List.filter_append, ← nearest_filter x.name (ys.filter _),
      List.filter_filter, nearest, List.cons_append]
    congr 4
    funext m
    rw [Bool.eq_iff_iff]
    by_cases hm : m.name = x.name
    · simp [hm]
    · have hne : ∀ y : Method, y.name = m.name → y.name ≠ x.name := fun y hy => hy ▸ hm
      simp only [hm, ne_eq, List.map_cons, List.mem_cons, List.mem_map, List.mem_filter,
        decide_eq_true_eq, Bool.and_eq_true, not_false_eq_true, true_and, false_or, not_exists,
        not_and]
      exact ⟨fun h y hy => h y hy.1, fun h y hy he => h y ⟨hy, hne y he⟩ he⟩

theorem methodsOf_eq (units : List Artifact) :
    methodsOf units = nearest (units.flatMap (·.methods)) := by
  have hfold (ms : List Method) : units.foldl (fun ms a => addMethods ms a.methods) (nearest ms) =
      nearest (ms ++ units.flatMap (·.methods)) := by
    induction units generalizing ms with
    | nil => simp
    | cons a units ih =>
      rw [List.foldl_cons, addMethods_eq, ← nearest_append, ih, List.append_assoc,
        List.flatMap_cons]
  exact hfold []

end Instance

end LiveRules
