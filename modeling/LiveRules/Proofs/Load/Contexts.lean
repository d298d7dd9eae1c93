import LiveRules.Proofs.Load.Alone

/-!
The contexts of a loaded folder. Each unit that is found gives one context for each of its rules,
own or inherited, if it is active, and none otherwise.
-/

namespace LiveRules

variable {d : Disk} {cp : ClassPath} {base : String} {path : Path} {a : Artifact}
variable {find : String → Option Artifact} {named : String → Prop}

/-- A text, unless it is empty. -/
def nonempty (s : Option String) : Option String := s.filter fun t => t ≠ ""

/-- The context of a rule of an instance; empty texts name no state. -/
def Context.ofMethod (owner : String) (m : Method) : Context :=
  ⟨owner, { m with
    fromState := nonempty m.fromState
    toState := nonempty m.toState
    update := nonempty m.update }⟩

/-- The contexts that a unit gives: those of the rules along its chain if it is active. -/
inductive Gives (find : String → Option Artifact) (a : Artifact) : List Context → Prop where
  | active {chain : List Artifact} (habstract : a.isAbstract = false)
      (hconstructible : a.constructible = true) (hchain : Chain find a chain) :
      Gives find a ((nearest (chain.flatMap (·.methods))).map (Context.ofMethod a.identifier))
  | passive (h : a.isAbstract = true ∨ a.constructible = false ∨ ∀ chain, ¬Chain find a chain) :
      Gives find a []

theorem Context.ofInstance_eq (i : Instance) :
    Context.ofInstance i = i.methods.map (Context.ofMethod i.unit.identifier) := by
  have hsaid (s : Option String) : (s.filter fun t => !t.isEmpty) = nonempty s := by
    rw [nonempty]
    congr 1
    funext t
    rw [Bool.eq_iff_iff]
    simp
  simp only [Context.ofInstance, hsaid]
  rfl

namespace LoadReport

/-- A unit gives the contexts of its instance. -/
theorem gives_ofUnit (hfollows : Instance.Follows find (cp.resolve d) named)
    (ha : ∀ base ∈ a.extends?, named base) (hkeyed : IsKeyed find)
    (hfound : find a.identifier = some a)
    (hbound : ∀ chain, Chain find a chain → chain.length ≤ cp.unitBound d + 2) :
    Gives find a ((ofUnit d cp path a).instances.flatMap Context.ofInstance) := by
  have hsearch (chain : List Artifact) :=
    @Instance.chain_eq_ok_iff find a chain (cp.resolve d) (cp.unitBound d + 2) [] named hfollows ha
  by_cases habstract : a.isAbstract = true
  · simpa only [ofUnit_eq, if_pos habstract] using .passive (.inl habstract)
  rw [Bool.not_eq_true] at habstract
  by_cases hconstructible : a.constructible = true
  · simp only [ofUnit_eq, ClassPath.instantiate_eq, habstract, hconstructible]
    cases hchain : Instance.chain (cp.resolve d) (cp.unitBound d + 2) [] a with
    | error e =>
      refine .passive (.inr (.inr fun chain hc => ?_))
      have hok := (hsearch chain).mpr ⟨hc, hbound chain hc, hc.nodup hkeyed hfound, by simp⟩
      rw [hchain] at hok
      cases hok
    | ok chain =>
      have hc := ((hsearch chain).mp hchain).1
      have hgives := Gives.active habstract hconstructible hc
      simpa [Context.ofInstance_eq, Instance.methodsOf_eq] using hgives
  · rw [Bool.not_eq_true] at hconstructible
    rw [ofUnit_eq, habstract, hconstructible]
    exact .passive (.inr (.inl hconstructible))

/-- The instances of a folder are those of its units, in the order of their paths. -/
theorem instances_ofFolder (folder : Path) (base : String) :
    (ofFolder d cp folder base true).instances =
      (d.collect folder Naming.artifactExtension).flatMap fun p =>
        (ofPath d cp base true p).instances := by
  rw [ofFolder_eq]
  exact List.flatMap_map ..

/-- The failures of a folder are those at its paths. -/
theorem failed_ofFolder (folder : Path) (base : String) :
    (ofFolder d cp folder base true).failed =
      (d.collect folder Naming.artifactExtension).flatMap fun p =>
        (ofPath d cp base true p).failed := by
  rw [ofFolder_eq]
  exact List.flatMap_map ..

theorem instances_ofPath {identifier : String} (hderive : Naming.derive path base = .ok identifier)
    (hresolve : cp.resolve d identifier = .ok a) :
    (ofPath d cp base true path).instances = (ofUnit d cp path a).instances := by
  simp only [ofPath_eq, resolveAt, hderive, hresolve, append, ↓reduceIte, List.nil_append]

end LoadReport

end LiveRules
