import LiveRules.Engine.Generation
import Mathlib.Data.List.Forall2

/-!
Contexts that ask for more. A context hits an event when all that it sets agrees with the event;
what it does not set, and a state that its trigger does not look at, asks for nothing. So a context
on which more states and thresholds are set hits fewer events, and when contexts of a generation are
restricted in that way, those that still fire are some of those that fired before, in the same order
and with the same effects.
-/

namespace LiveRules

variable {α β : Type} {x y : Option α} {m n : Method} {c c' : Context} {b : Bounds} {e : Event}

/-! ### What a context asks for -/

namespace Context

theorem agrees_iff {wanted state : Option String} :
    agrees wanted state = true ↔ ∀ s ∈ wanted, state = some s := by
  cases wanted with
  | none => simp [agrees]
  | some s =>
    simp only [agrees, beq_iff_eq, Option.mem_some_iff, forall_eq']
    exact eq_comm

theorem holds_iff {bound : Option Float} {test : Float → Bool} :
    holds bound test = true ↔ ∀ t ∈ bound, test t = true := by
  cases bound <;> simp [holds]

/-- The state of an event is a number that passes a test against a threshold, if there is one. -/
def Passes (e : Event) (bound : Option Float) (test : Float → Float → Prop) : Prop :=
  ∀ t ∈ bound, ∃ v ∈ e.number?, test v t

/-- An event keeps all thresholds that are set. -/
structure Keeps (b : Bounds) (e : Event) : Prop where
  lt : Passes e b.lt fun v t => v < t
  lte : Passes e b.lte fun v t => v ≤ t
  gt : Passes e b.gt fun v t => t < v
  gte : Passes e b.gte fun v t => t ≤ v

theorem within_iff {v : Float} (hv : e.number? = some v) : within b v = true ↔ Keeps b e := by
  have hpasses (bound : Option Float) (test : Float → Float → Prop) :
      Passes e bound test ↔ ∀ t ∈ bound, test v t := by
    simp only [Passes, hv, Option.mem_some_iff, exists_eq_left']
  simp only [within, Bool.and_eq_true, holds_iff, decide_eq_true_eq]
  constructor
  · rintro ⟨⟨⟨hlt, hlte⟩, hgt⟩, hgte⟩
    exact ⟨(hpasses _ _).mpr hlt, (hpasses _ _).mpr hlte, (hpasses _ _).mpr hgt,
      (hpasses _ _).mpr hgte⟩
  · intro h
    exact ⟨⟨⟨(hpasses _ _).mp h.lt, (hpasses _ _).mp h.lte⟩, (hpasses _ _).mp h.gt⟩,
      (hpasses _ _).mp h.gte⟩

theorem not_passes_of_none (hv : e.number? = none) {bound : Option Float}
    {test : Float → Float → Prop} (hset : bound.isSome = true) : ¬Passes e bound test := by
  obtain ⟨t, ht⟩ := Option.isSome_iff_exists.mp hset
  intro h
  obtain ⟨v, hmem, -⟩ := h t ht
  rw [hv] at hmem
  cases hmem

/-- The branches for contexts without thresholds and for states that are no numbers come to one
rule: each threshold that is set is kept by a number. -/
theorem boundsMatch_iff : boundsMatch b e = true ↔ Keeps b e := by
  rw [boundsMatch]
  by_cases hset : b.isSet = true
  · rw [if_pos hset]
    cases hv : e.number? with
    | some v => exact within_iff hv
    | none =>
      simp only [Bool.false_eq_true, false_iff]
      intro h
      simp only [Bounds.isSet, Bool.or_eq_true] at hset
      rcases hset with ((hset | hset) | hset) | hset
      · exact not_passes_of_none hv hset h.lt
      · exact not_passes_of_none hv hset h.lte
      · exact not_passes_of_none hv hset h.gt
      · exact not_passes_of_none hv hset h.gte
  · have hfree {bound : Option Float} {test : Float → Float → Prop} (h : bound.isSome = false) :
        Passes e bound test := by
      rw [Option.isSome_eq_false_iff, Option.isNone_iff_eq_none] at h
      rintro t ht
      rw [h] at ht
      cases ht
    simp only [Bounds.isSet, Bool.not_eq_true, Bool.or_eq_false_iff] at hset
    obtain ⟨⟨⟨hlt, hlte⟩, hgt⟩, hgte⟩ := hset
    simp only [Bounds.isSet, hlt, hlte, hgt, hgte, Bool.or_self, Bool.false_eq_true, if_false,
      true_iff]
    exact ⟨hfree hlt, hfree hlte, hfree hgt, hfree hgte⟩

/-- All that a context asks of an event. -/
structure Wants (c : Context) (e : Event) : Prop where
  item : e.item = c.method.item
  kind : e.kind = c.method.trigger
  fromState : c.method.trigger = .changed → ∀ s ∈ c.method.fromState, e.previous = some s
  toState : c.method.trigger = .changed → ∀ s ∈ c.method.toState, e.state = s
  update : c.method.trigger ≠ .changed → ∀ s ∈ c.method.update, e.state = s
  bounds : Keeps c.method.bounds e

theorem hits_iff : c.hits e = true ↔ c.Wants e := by
  simp only [hits, Bool.and_eq_true, beq_iff_eq, boundsMatch_iff]
  constructor
  · rintro ⟨⟨⟨hitem, hkind⟩, hstates⟩, hbounds⟩
    rw [statesMatch] at hstates
    refine ⟨hitem, hkind, fun htrigger => ?_, fun htrigger => ?_, fun htrigger => ?_, hbounds⟩
    · rw [htrigger, Bool.and_eq_true, agrees_iff, agrees_iff] at hstates
      exact hstates.1
    · rw [htrigger, Bool.and_eq_true, agrees_iff, agrees_iff] at hstates
      exact fun s hs => Option.some.inj (hstates.2 s hs)
    · cases hm : c.method.trigger with
      | changed => exact absurd hm htrigger
      | receivedUpdate | receivedCommand =>
        rw [hm, agrees_iff] at hstates
        exact fun s hs => Option.some.inj (hstates s hs)
  · intro h
    refine ⟨⟨⟨h.item, h.kind⟩, ?_⟩, h.bounds⟩
    rw [statesMatch]
    cases hm : c.method.trigger with
    | changed =>
      rw [Bool.and_eq_true, agrees_iff, agrees_iff]
      exact ⟨h.fromState hm, fun s hs => congrArg some (h.toState hm s hs)⟩
    | receivedUpdate | receivedCommand =>
      rw [agrees_iff]
      exact fun s hs => congrArg some (h.update (by simp [hm]) s hs)

end Context

/-! ### Restrictions -/

/-- A value that is set stays; one that is not set may be set. -/
def SetsUnset (x y : Option α) : Prop := x = none ∨ y = x

theorem SetsUnset.refl (x : Option α) : SetsUnset x x := .inr rfl

theorem SetsUnset.mem (h : SetsUnset x y) {v : α} (hv : v ∈ x) : v ∈ y := by
  rcases h with rfl | rfl
  · cases hv
  · exact hv

theorem SetsUnset.filter (h : SetsUnset x y) (p : α → Bool) :
    SetsUnset (x.filter p) (y.filter p) := by
  rcases h with rfl | rfl
  · exact .inl rfl
  · exact .inr rfl

theorem SetsUnset.passes {x y : Option Float} (h : SetsUnset x y) {test : Float → Float → Prop}
    (hy : Context.Passes e y test) : Context.Passes e x test :=
  fun t ht => hy t (h.mem ht)

/-- The second method is the first one with more states and thresholds set. -/
structure Method.Restricts (m n : Method) : Prop where
  rest : n = { m with fromState := n.fromState, toState := n.toState, update := n.update,
                      bounds := n.bounds }
  fromState : SetsUnset m.fromState n.fromState
  toState : SetsUnset m.toState n.toState
  update : SetsUnset m.update n.update
  lt : SetsUnset m.bounds.lt n.bounds.lt
  lte : SetsUnset m.bounds.lte n.bounds.lte
  gt : SetsUnset m.bounds.gt n.bounds.gt
  gte : SetsUnset m.bounds.gte n.bounds.gte

namespace Context

structure Restricts (c c' : Context) : Prop where
  owner : c'.owner = c.owner
  method : c.method.Restricts c'.method

/-- Restricted methods of an instance make restricted contexts; an empty state is none. -/
theorem restricts_ofInstance {i j : Instance} (howner : j.unit.identifier = i.unit.identifier)
    (h : List.Forall₂ Method.Restricts i.methods j.methods) :
    List.Forall₂ Restricts (ofInstance i) (ofInstance j) := by
  rw [ofInstance, ofInstance, List.forall₂_map_left_iff, List.forall₂_map_right_iff]
  refine h.imp fun m n hmn => ⟨howner, ?_⟩
  refine ⟨?_, hmn.fromState.filter _, hmn.toState.filter _, hmn.update.filter _, hmn.lt, hmn.lte,
    hmn.gt, hmn.gte⟩
  rw [hmn.rest]

/-- A restricted context asks for all that it asked for before. -/
theorem Restricts.wants (h : c.Restricts c') (hwants : c'.Wants e) : c.Wants e := by
  have hitem : c'.method.item = c.method.item := by rw [h.method.rest]
  have htrigger : c'.method.trigger = c.method.trigger := by rw [h.method.rest]
  obtain ⟨hitem', hkind, hfrom, hto, hupdate, hbounds⟩ := hwants
  rw [htrigger] at hkind hfrom hto hupdate
  exact {
    item := hitem'.trans hitem
    kind := hkind
    fromState := fun hm s hs => hfrom hm s (h.method.fromState.mem hs)
    toState := fun hm s hs => hto hm s (h.method.toState.mem hs)
    update := fun hm s hs => hupdate hm s (h.method.update.mem hs)
    bounds := ⟨h.method.lt.passes hbounds.lt, h.method.lte.passes hbounds.lte,
      h.method.gt.passes hbounds.gt, h.method.gte.passes hbounds.gte⟩ }

theorem Restricts.hits (h : c.Restricts c') (hhits : c'.hits e = true) : c.hits e = true :=
  hits_iff.mpr (h.wants (hits_iff.mp hhits))

theorem Restricts.rule_eq (h : c.Restricts c') : c'.rule = c.rule := by
  rw [rule, rule, h.owner, h.method.rest]

theorem Restricts.invoke_eq (h : c.Restricts c') (e : Event) : c'.invoke e = c.invoke e := by
  have hactions : c'.method.actions = c.method.actions := by rw [h.method.rest]
  have htakes : c'.method.takesEvent = c.method.takesEvent := by rw [h.method.rest]
  have hrender (template : String) : c'.render e template = c.render e template := by
    rw [render, render, htakes]
  rw [invoke, invoke, hactions]
  refine List.map_congr_left fun a _ => ?_
  cases a <;> simp only [perform, hrender]

end Context

/-! ### Generations -/

/-- Where related elements pass only together with their partners, those that pass are related to
some of those partners that pass. -/
theorem exists_sublist_of_forall₂ {R : α → β → Prop} {p : α → Bool} {q : β → Bool} {xs : List α}
    {ys : List β} (h : List.Forall₂ R xs ys) (hq : ∀ x y, R x y → q y = true → p x = true) :
    ∃ kept, kept.Sublist (xs.filter p) ∧ List.Forall₂ R kept (ys.filter q) := by
  induction h with
  | nil => exact ⟨[], List.Sublist.refl _, .nil⟩
  | @cons x y xs ys hxy _ ih =>
    obtain ⟨kept, hsub, hkept⟩ := ih
    cases hy : q y with
    | true =>
      rw [List.filter_cons_of_pos (hq x y hxy hy), List.filter_cons_of_pos hy]
      exact ⟨x :: kept, hsub.cons_cons x, .cons hxy hkept⟩
    | false =>
      rw [List.filter_cons_of_neg (l := ys) (by simp [hy])]
      exact ⟨kept, hsub.trans ((List.sublist_cons_self x xs).filter p), hkept⟩

variable {g g' : Generation}

namespace Generation

/-- Setting states and thresholds that a context leaves open only makes it hit fewer events. Where
any contexts of a generation are restricted so, those that fire are restrictions of some that fired
without, in the same order and with the same effects, and what the engine tells of them is part of
what it told. -/
theorem fires_less_when_restricted (h : List.Forall₂ Context.Restricts g.contexts g'.contexts)
    (e : Event) :
    (∀ c c' : Context, c.Restricts c' → c'.hits e = true → c.hits e = true) ∧
    (∃ kept, kept.Sublist (g.fire e) ∧
      List.Forall₂ (fun x y => x.1.Restricts y.1 ∧ y.2 = x.2) kept (g'.fire e)) ∧
    ((Engine.mk g').dispatch e).1.Sublist ((Engine.mk g).dispatch e).1 := by
  obtain ⟨contexts, hsub, hkept⟩ := exists_sublist_of_forall₂ (p := fun c => c.hits e)
    (q := fun c => c.hits e) h fun c c' hc hhits => hc.hits hhits
  have hfired : (contexts.map fun c => (c, c.invoke e)).Sublist (g.fire e) := hsub.map _
  have hpairs : List.Forall₂ (fun x y => x.1.Restricts y.1 ∧ y.2 = x.2)
      (contexts.map fun c => (c, c.invoke e)) (g'.fire e) := by
    rw [fire, matching, List.forall₂_map_left_iff, List.forall₂_map_right_iff]
    exact hkept.imp fun c c' hc => ⟨hc, hc.invoke_eq e⟩
  refine ⟨fun c c' hc hhits => hc.hits hhits, ⟨_, hfired, hpairs⟩, ?_⟩
  have htold : (g'.fire e).map (fun f => (f.1.rule, f.2)) =
      (contexts.map fun c => (c, c.invoke e)).map fun f => (f.1.rule, f.2) := by
    symm
    rw [← List.forall₂_eq_eq_eq, List.forall₂_map_left_iff, List.forall₂_map_right_iff]
    exact hpairs.imp fun x y hxy => by rw [hxy.1.rule_eq, hxy.2]
  change List.Sublist (List.map _ (g'.fire e)) (List.map _ (g.fire e))
  rw [htold]
  exact hfired.map _

/-! ### Two rules of a lamp -/

/-- A rule for every change of a lamp and one for those to `ON`. -/
def lampInstance : Instance where
  unit := { identifier := "p.Lamp", kind := .rule, constructible := true }
  methods :=
    [{ name := "any", item := "Lamp", trigger := .changed, actions := [.log "changed"] },
      { name := "on", item := "Lamp", trigger := .changed, toState := some "ON",
        actions := [.log "on"] }]

/-- The same rules, the first one for numbers only and the second one for changes from `OFF`. -/
def strictInstance : Instance where
  unit := lampInstance.unit
  methods :=
    [{ name := "any", item := "Lamp", trigger := .changed, bounds := { gt := some 1.0 },
        actions := [.log "changed"] },
      { name := "on", item := "Lamp", trigger := .changed, fromState := some "OFF",
        toState := some "ON", actions := [.log "on"] }]

def turnedOn : Event :=
  { item := "Lamp", kind := .changed, state := "ON", previous := some "OFF" }

theorem restricts_lampInstance :
    List.Forall₂ Method.Restricts lampInstance.methods strictInstance.methods := by
  refine .cons ⟨rfl, .refl _, .refl _, .refl _, .refl _, .refl _, ?_, .refl _⟩
    (.cons ⟨rfl, ?_, .refl _, .refl _, .refl _, .refl _, .refl _, .refl _⟩ .nil)
  · exact .inl rfl
  · exact .inl rfl

theorem fires_less_when_restricted_lamp :
    List.Forall₂ Context.Restricts (Generation.contexts ⟨1, [lampInstance]⟩)
      (Generation.contexts ⟨1, [strictInstance]⟩) ∧
    ((Engine.mk ⟨1, [lampInstance]⟩).dispatch turnedOn).1 =
      [("p.Lamp.any", [.log "changed"]), ("p.Lamp.on", [.log "on"])] ∧
    ((Engine.mk ⟨1, [strictInstance]⟩).dispatch turnedOn).1 = [("p.Lamp.on", [.log "on"])] ∧
    ((Engine.mk ⟨1, [strictInstance]⟩).dispatch turnedOn).1.Sublist
      ((Engine.mk ⟨1, [lampInstance]⟩).dispatch turnedOn).1 := by
  have hcontexts : List.Forall₂ Context.Restricts (Generation.contexts ⟨1, [lampInstance]⟩)
      (Generation.contexts ⟨1, [strictInstance]⟩) := by
    have hone := Context.restricts_ofInstance (i := lampInstance) (j := strictInstance) rfl
      restricts_lampInstance
    simpa [Generation.contexts] using hone
  exact ⟨hcontexts, by decide +kernel, by decide +kernel,
    (fires_less_when_restricted hcontexts turnedOn).2.2⟩

end Generation

end LiveRules
