import LiveRules.Proofs.Load.Lookup

/-!
What sources mean. A source means a unit with just what it declares; the only thing that is added
is, for each rule, the unit that declares its item. The linked units of a batch are the meanings of
its sources.
-/

namespace LiveRules

open Toml (Marked)
open Disk

/-- A method says what a rule declares, and knows the unit of its item. -/
structure Carries (itemClass? : String → Option String) (r : RuleDeclaration) (m : Method) :
    Prop where
  name : m.name = r.name.text
  item : m.item = r.item.text
  itemClass : m.itemClass = itemClass? r.item.text
  trigger : (Text.trim r.trigger.text, m.trigger) ∈ Trigger.spellings
  fromState : m.fromState = nonempty r.fromState
  toState : m.toState = nonempty r.toState
  update : m.update = nonempty r.update
  bounds : m.bounds = r.bounds
  takesEvent : m.takesEvent = r.takesEvent
  actions : m.actions = r.actions

/-- A unit is what a declaration in a file with this stem means. -/
structure Means (itemClass? : String → Option String) (stem : String) (x : Declaration)
    (a : Artifact) : Prop where
  identifier : a.identifier = x.identifier stem
  isAbstract : a.isAbstract = x.isAbstract
  constructible : a.constructible = x.constructible
  base : a.extends? = x.base?.map Marked.text
  rules : List.Forall₂ (Carries itemClass?) x.rules a.methods

/-- Declarations with the stems of the files that they are found in. -/
def declarations (sources : List Source) (xs : List Declaration) : List (String × Declaration) :=
  (sources.zip xs).map fun y => (y.1.path.stem, y.2)

/-- The unit that declares an item: the first one of a batch, or else the first one of the
archives. -/
def declaring (declared : List (String × Declaration)) (packs : List Pack) (item : String) :
    Option String :=
  ((declared.filterMap fun y => y.2.item.map fun i => (i.name, y.2.identifier y.1)).lookup item).or
    ((packs.flatMap fun p => p.units.filterMap fun x => ClassPath.declared? x.2).lookup item)

variable {d d₁ d' : Disk} {c : Config} {sources : List Source} {xs : List Declaration}
variable {batch : List CheckedUnit} {cp : ClassPath}

theorem nonempty_eq (s : Option String) : Check.meaningful s = nonempty s := by
  rw [Check.meaningful, nonempty]
  congr 1
  funext t
  rw [Bool.eq_iff_iff]
  simp

/-- A linked unit is what its source means. -/
theorem means_linked {s : Link.Scope} {path : Path} {text : String} {x : Declaration}
    (h : x.IsProper path.stem) :
    Means s.itemClass? path.stem x (Link.linked s (Check.checked path text x)) := by
  refine ⟨rfl, rfl, rfl, rfl, ?_⟩
  have hrules := h.rules
  show List.Forall₂ _ x.rules ((x.rules.filterMap Check.method?).map fun m =>
    { m with itemClass := s.itemClass? m.item })
  generalize x.rules = rules at hrules
  induction rules with
  | nil => exact .nil
  | cons r rest ih =>
    obtain ⟨t, ht⟩ := Trigger.read?_isSome_iff.mpr (hrules r List.mem_cons_self).trigger
    rw [List.filterMap_cons]
    simp only [Check.method?, ht, Option.map_some, List.map_cons]
    exact .cons ⟨rfl, rfl, rfl, Trigger.read?_eq_some_iff.mp ht, nonempty_eq _, nonempty_eq _,
      nonempty_eq _, rfl, rfl, rfl⟩ (ih fun q hq => hrules q (List.mem_cons_of_mem r hq))

/-- The checked units of a batch belong to the declarations of its sources. -/
theorem forall₂_checked (hxs : List.Forall₂ (Source.Declares d) sources xs)
    (hbatch : Builtin.checkAll d sources = (batch, [])) :
    List.Forall₂ (fun y p => y.2.IsProper y.1.path.stem ∧
      ∃ text, p = Check.checked y.1.path text y.2) (sources.zip xs) batch := by
  have hchecked := Builtin.forall₂_of_checkAll hbatch
  clear hbatch
  induction hxs generalizing batch with
  | nil =>
    cases hchecked
    exact .nil
  | @cons s x sources xs hx _ ih =>
    cases hchecked with
    | cons hp hrest =>
      obtain ⟨text, htext, hspelled, hproper⟩ := hx
      obtain ⟨text', x', htext', hx', -, rfl⟩ := Check.ofPath_eq_ok_iff.mp hp
      rw [htext, Except.ok.injEq] at htext'
      subst htext'
      rw [Declaration.ofText_eq_ok_iff.mpr hspelled, Except.ok.injEq] at hx'
      subst hx'
      exact .cons ⟨hproper, text, rfl⟩ (ih hrest)

/-- Linking finds the unit of an item where the sources and archives declare it. -/
theorem itemClass?_eq
    (hxs : List.Forall₂ (fun y p => y.2.IsProper y.1.path.stem ∧
      ∃ text, p = Check.checked y.1.path text y.2) (sources.zip xs) batch)
    (hcp : cp.IsPacked) (item : String) : (Link.Scope.of d cp batch).itemClass? item =
      declaring (declarations sources xs) (archives cp) item := by
  have hbatch : Link.declaredItems batch = (declarations sources xs).filterMap fun y =>
      y.2.item.map fun i => (i.name, y.2.identifier y.1) := by
    rw [declarations]
    generalize sources.zip xs = ys at hxs
    induction hxs with
    | nil => rfl
    | @cons y p ys batch hp _ ih =>
      obtain ⟨-, text, rfl⟩ := hp
      rw [Link.declaredItems, List.filterMap_cons, List.map_cons, List.filterMap_cons]
      rw [Link.declaredItems] at ih
      rw [ih]
      rfl
  have hpacks : cp.items d = (archives cp).flatMap fun p =>
      p.units.filterMap fun x => ClassPath.declared? x.2 := by
    rw [ClassPath.items]
    induction cp with
    | nil => rfl
    | cons entry cp ih =>
      obtain ⟨path, content, rfl⟩ := hcp entry List.mem_cons_self
      rw [List.flatMap_cons, ih fun e he => hcp e (List.mem_cons_of_mem _ he)]
      rfl
  rw [Link.Scope.itemClass?, declaring]
  show (List.lookup item (Link.declaredItems batch)).or (List.lookup item (cp.items d)) = _
  rw [hbatch, hpacks]

namespace Pass

/-- The units that a pass stores are what its sources mean. -/
theorem means_linkedUnits (h : d₁.Regular) (hxs : List.Forall₂ (Source.Declares d) sources xs)
    (hbatch : Builtin.checkAll d sources = (batch, [])) :
    List.Forall₂ (fun y a => Means (declaring (declarations sources xs)
      (archives (rulesPath d₁ c).1)) y.1 y.2 a) (declarations sources xs)
      (linkedUnits c d₁ batch) := by
  have hchecked := forall₂_checked hxs hbatch
  have hitems := itemClass?_eq (d := d₁) hchecked (isPacked_rulesPath (c := c) h.sound)
  conv => enter [2]; rw [declarations]
  rw [List.forall₂_map_left_iff, List.forall₂_map_right_iff]
  refine hchecked.imp fun y p hp => ?_
  obtain ⟨hproper, text, rfl⟩ := hp
  rw [← funext hitems]
  exact means_linked hproper

/-- What the units of a batch extend has dotted names, if the units themselves and the keys of the
archives have. -/
theorem Compiles.isDotted_extends (h : Compiles c d₁ d' batch) (h₁ : d₁.Regular)
    (hdotted : ∀ a ∈ linkedUnits c d₁ batch, Naming.IsDotted a.identifier)
    (hlinked : ∀ p ∈ archives (rulesPath d₁ c).1, p.IsProper) :
    ∀ a ∈ linkedUnits c d₁ batch, ∀ base ∈ a.extends?, Naming.IsDotted base := by
  intro a ha base hbase
  obtain ⟨p, hp, rfl⟩ := List.mem_map.mp ha
  have hlinks := ((Link.problems_eq_nil_iff (Builtin.length_itemLines h.checked)).mp
    h.links).2.1 _ (List.mem_map_of_mem hp) base hbase
  rcases hlinks with hmem | hcontains
  · obtain ⟨q, hq, rfl⟩ := List.mem_map.mp hmem
    exact hdotted (Link.linked (.of d₁ (rulesPath d₁ c).1 batch) q) (List.mem_map_of_mem hq)
  · obtain ⟨pack, hpack, b, hb⟩ := (isPacked_rulesPath h₁.sound).exists_of_contains hcontains
    exact (hlinked pack hpack).dotted _ hb

end Pass

end LiveRules
