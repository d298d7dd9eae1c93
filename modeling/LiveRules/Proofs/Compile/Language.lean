import LiveRules.Compile.Builtin
import Mathlib.Data.List.Nodup
import Mathlib.Data.List.Forall2

/-!
The language of the built-in compiler. A batch is accepted exactly when each of its sources is a
document of the right shape that keeps the rules for names, triggers and thresholds, and when the
references between the sources and to the class path can be followed. A batch that is not accepted
leaves the disk alone.
-/

namespace LiveRules

open Toml (Node Entries Fitted Marked)

/-! ### Triggers -/

namespace Trigger

/-- The words for triggers. -/
def spellings : List (String × Trigger) := [
  ("changed", .changed), ("received update", .receivedUpdate),
  ("received command", .receivedCommand), ("updated", .receivedUpdate),
  ("update", .receivedUpdate), ("command", .receivedCommand)]

theorem read?_eq_some_iff {s : String} {t : Trigger} :
    read? s = some t ↔ (Text.trim s, t) ∈ spellings := by
  simp only [read?, ofWord?, spellings, List.mem_cons, List.not_mem_nil, or_false, Prod.mk.injEq]
  constructor
  · intro h
    split_ifs at h with hu <;> cases h
    · rcases hu with hu | hu <;> simp [hu]
    all_goals simp [*]
  · rintro (⟨hs, rfl⟩ | ⟨hs, rfl⟩ | ⟨hs, rfl⟩ | ⟨hs, rfl⟩ | ⟨hs, rfl⟩ | ⟨hs, rfl⟩) <;> simp [hs]

theorem read?_isSome_iff {s : String} :
    (∃ t, read? s = some t) ↔ Text.trim s ∈ spellings.map Prod.fst := by
  simp only [read?_eq_some_iff, List.mem_map, Prod.exists, exists_and_right, exists_eq_right]

/-- Only one word stands for a change. -/
theorem eq_changed_iff {s : String} {t : Trigger} (h : read? s = some t) :
    t = .changed ↔ Text.trim s = "changed" := by
  rw [read?_eq_some_iff] at h
  simp only [spellings, List.mem_cons, List.not_mem_nil, or_false, Prod.mk.injEq] at h
  rcases h with ⟨hs, rfl⟩ | ⟨hs, rfl⟩ | ⟨hs, rfl⟩ | ⟨hs, rfl⟩ | ⟨hs, rfl⟩ | ⟨hs, rfl⟩ <;> simp [hs]

end Trigger

/-! ### One source -/

/-- A rule keeps to the language. -/
structure RuleDeclaration.IsProper (r : RuleDeclaration) : Prop where
  trigger : Text.trim r.trigger.text ∈ Trigger.spellings.map Prod.fst
  states : Text.trim r.trigger.text ≠ "changed" → r.fromState = none ∧ r.toState = none
  upper : r.bounds.lt = none ∨ r.bounds.lte = none
  lower : r.bounds.gt = none ∨ r.bounds.gte = none

/-- A declaration under a file name with the given stem keeps to the language. -/
structure Declaration.IsProper (stem : String) (x : Declaration) : Prop where
  name : ∀ m, x.name? = some m → m.text = stem
  package : ∃ m, x.package? = some m ∧ Naming.isNamespace m.text = true
  item : x.kind = .item → x.item.isSome = true
  distinct : (x.rules.map fun r => r.name.text).Nodup
  rules : ∀ r ∈ x.rules, r.IsProper

namespace Check

variable {line : Marked → Nat} {stem : String} {x : Declaration}

theorem nameComplaints_eq_nil_iff :
    nameComplaints line stem x = [] ↔ ∀ m, x.name? = some m → m.text = stem := by
  unfold nameComplaints
  cases x.name? with
  | none => simp
  | some name => by_cases h : name.text = stem <;> simp [h]

theorem packageComplaints_eq_nil_iff :
    packageComplaints line x = [] ↔
      ∃ m, x.package? = some m ∧ Naming.isNamespace m.text = true := by
  unfold packageComplaints
  cases x.package? with
  | none => simp
  | some package => by_cases h : Naming.isNamespace package.text = true <;> simp [h]

theorem kindComplaints_eq_nil_iff :
    kindComplaints x = [] ↔ (x.kind = .item → x.item.isSome = true) := by
  unfold kindComplaints
  cases x.item <;> simp

theorem qualifierComplaints_eq_nil_iff {t : Trigger} {r : RuleDeclaration} :
    qualifierComplaints line t r = [] ↔
      (t ≠ .changed → r.fromState = none ∧ r.toState = none) ∧
        (r.bounds.lt = none ∨ r.bounds.lte = none) ∧
        (r.bounds.gt = none ∨ r.bounds.gte = none) := by
  simp only [qualifierComplaints, List.append_eq_nil_iff, ite_eq_right_iff, List.cons_ne_self,
    imp_false, Option.isSome_iff_ne_none, not_and_or, not_or, not_not, and_assoc]
  exact and_congr or_iff_not_imp_left Iff.rfl

/-- A rule gives no complaint when its name is new and it keeps to the language. -/
theorem ruleComplaints_eq_nil_iff {seen : List String} {r : RuleDeclaration} :
    ruleComplaints line seen r = [] ↔ r.name.text ∉ seen ∧ r.IsProper := by
  simp only [ruleComplaints, List.append_eq_nil_iff, List.contains_iff_mem, ite_eq_right_iff,
    List.cons_ne_self, imp_false]
  refine and_congr Iff.rfl ?_
  cases ht : Trigger.read? r.trigger.text with
  | none =>
    have hnot : Text.trim r.trigger.text ∉ Trigger.spellings.map Prod.fst := by
      rw [← Trigger.read?_isSome_iff]
      simp [ht]
    exact ⟨fun h => by simp at h, fun h => absurd h.trigger hnot⟩
  | some t =>
    have hin := Trigger.read?_isSome_iff.mp ⟨t, ht⟩
    have hchanged := Trigger.eq_changed_iff ht
    simp only [qualifierComplaints_eq_nil_iff, ne_eq, hchanged]
    exact ⟨fun h => ⟨hin, h.1, h.2.1, h.2.2⟩, fun h => ⟨h.states, h.upper, h.lower⟩⟩

/-- The names before a rule are those of the rules before it and those seen at the start. -/
theorem rulesComplaints_eq_nil_iff {seen : List String} {rules : List RuleDeclaration} :
    rulesComplaints line seen rules = [] ↔
      (rules.map fun r => r.name.text).Nodup ∧ (∀ r ∈ rules, r.name.text ∉ seen) ∧
        ∀ r ∈ rules, r.IsProper := by
  induction rules generalizing seen with
  | nil => simp [rulesComplaints]
  | cons r rest ih =>
    simp only [rulesComplaints, List.append_eq_nil_iff, ruleComplaints_eq_nil_iff, ih,
      List.map_cons, List.nodup_cons, List.mem_cons, forall_eq_or_imp, List.mem_map, not_exists,
      not_and, not_or]
    constructor
    · rintro ⟨⟨hr, hproper⟩, hnodup, hnew, hrest⟩
      exact ⟨⟨fun q hq he => (hnew q hq).1 he, hnodup⟩, ⟨hr, fun q hq => (hnew q hq).2⟩, hproper,
        hrest⟩
    · rintro ⟨⟨hfirst, hnodup⟩, ⟨hr, hnew⟩, hproper, hrest⟩
      exact ⟨⟨hr, hproper⟩, hnodup, fun q hq => ⟨fun he => hfirst q hq he, hnew q hq⟩, hrest⟩

theorem complaints_eq_nil_iff : complaints line stem x = [] ↔ x.IsProper stem := by
  simp only [complaints, List.append_eq_nil_iff, nameComplaints_eq_nil_iff,
    packageComplaints_eq_nil_iff, kindComplaints_eq_nil_iff, rulesComplaints_eq_nil_iff,
    List.not_mem_nil, not_false_eq_true, implies_true, true_and]
  exact ⟨fun ⟨⟨⟨hn, hp⟩, hk⟩, hd, hr⟩ => ⟨hn, hp, hk, hd, hr⟩,
    fun h => ⟨⟨⟨h.name, h.package⟩, h.item⟩, h.distinct, h.rules⟩⟩

/-- What the check makes of a declaration that keeps to the language. -/
def checked (path : Path) (text : String) (x : Declaration) : CheckedUnit :=
  { path
    unit := unitOf text path.stem x
    baseLine := x.base?.elim 0 fun m => Toml.lineAt text.toList m.mark
    itemLines := x.rules.map fun r => Toml.lineAt text.toList r.item.mark }

theorem ofText_eq_ok_iff {path : Path} {text : String} {p : CheckedUnit} :
    ofText path text = .ok p ↔
      ∃ x, Declaration.ofText text.toList = .ok x ∧ x.IsProper path.stem ∧
        p = checked path text x := by
  unfold ofText
  cases hx : Declaration.ofText text.toList with
  | error e => simp
  | ok x =>
    simp only [Except.ok.injEq, exists_eq_left']
    rw [← @complaints_eq_nil_iff fun m => Toml.lineAt text.toList m.mark]
    split <;> rename_i hc
    · simp only [hc, true_and, Except.ok.injEq]
      exact eq_comm
    · simp only [reduceCtorEq, false_iff, not_and]
      exact fun h => absurd h hc

theorem ofPath_eq_ok_iff {d : Disk} {path : Path} {p : CheckedUnit} :
    ofPath d path = .ok p ↔
      ∃ text x, d.readText path = .ok text ∧ Declaration.ofText text.toList = .ok x ∧
        x.IsProper path.stem ∧ p = checked path text x := by
  unfold ofPath
  cases d.readText path with
  | error e => simp
  | ok text => simp [ofText_eq_ok_iff]

/-- A check that fails says why. -/
theorem ofPath_error_ne_nil {d : Disk} {path : Path} {found : List Diagnostic}
    (h : ofPath d path = .error found) : found ≠ [] := by
  unfold ofPath at h
  split at h
  · simp only [Except.error.injEq] at h
    exact h ▸ List.cons_ne_nil _ _
  · simp only [ofText] at h
    split at h
    · simp only [Except.error.injEq] at h
      exact h ▸ List.cons_ne_nil _ _
    · split at h
      · simp at h
      · rename_i hne
        simp only [Except.error.injEq] at h
        rw [← h, ne_eq, List.map_eq_nil_iff]
        exact hne

end Check

/-! ### Fields of documents -/

namespace Toml

/-- The items of a list, however it is written. -/
def Node.items : Node → List Node
  | .array _ items | .tables _ items => items
  | _ => []

/-- The keys of a table, however it is written. -/
def Node.keys : Node → List String
  | .table _ _ entries => entries.map fun entry => entry.1.name
  | _ => []

theorem placed_eq_ok_iff {α : Type} {mark : Option Mark} {fitted : Fitted α} {x : α} :
    placed mark fitted = .ok x ↔ fitted = .ok x := by
  rcases fitted with ⟨message, _ | mark'⟩ | y <;> simp [placed]

/-- In a fold that ends well every step ends well. -/
theorem foldlM_ok {α β : Type} {step : β → α → Fitted β} {xs : List α} {start last : β}
    (h : xs.foldlM step start = .ok last) : ∀ x ∈ xs, ∃ before after, step before x = .ok after := by
  induction xs generalizing start with
  | nil => simp
  | cons x xs ih =>
    rw [List.foldlM_cons] at h
    cases hx : step start x with
    | error e => rw [hx] at h; cases h
    | ok next =>
      rw [hx] at h
      intro y hy
      rcases List.mem_cons.mp hy with rfl | hy
      · exact ⟨start, next, hx⟩
      · exact ih h y hy

theorem mapM_ok {α β : Type} {f : α → Fitted β} {xs : List α} {ys : List β}
    (h : xs.mapM f = .ok ys) : ∀ x ∈ xs, ∃ y, f x = .ok y := by
  induction xs generalizing ys with
  | nil => simp
  | cons x xs ih =>
    rw [List.mapM_cons] at h
    cases hx : f x with
    | error e => rw [hx] at h; cases h
    | ok y =>
      rw [hx] at h
      cases hxs : xs.mapM f with
      | error e => rw [hxs] at h; cases h
      | ok rest =>
        intro z hz
        rcases List.mem_cons.mp hz with rfl | hz
        · exact ⟨y, hx⟩
        · exact ih hxs z hz

/-- A record that refuses unknown fields is read from known fields only. -/
theorem Members.read_known {α : Type} {names : List String} {field : α → String → Node → Fitted α}
    {start x : α} {entries : Entries}
    (h : (Members.named entries).read names field (fun _ key => unknownField names key) start =
      .ok x) : ∀ entry ∈ entries, entry.1.name ∈ names ∧
        ∃ before after, field before entry.1.name entry.2 = .ok after := by
  rintro ⟨key, node⟩ hentry
  obtain ⟨before, after, hstep⟩ := foldlM_ok h (key, node) hentry
  dsimp only at hstep
  by_cases hknown : names.contains key.name = true
  · rw [if_pos hknown, placed_eq_ok_iff] at hstep
    exact ⟨List.contains_iff_mem.mp hknown, before, after, hstep⟩
  · rw [if_neg hknown] at hstep
    cases hstep

end Toml

namespace Declaration

/-- Neither the document nor a table of one of its rules has a field that is not known. -/
structure HasKnownFields (entries : Entries) : Prop where
  document : ∀ entry ∈ entries, entry.1.name ∈ fields
  rules : ∀ entry ∈ entries, entry.1.name = "rule" → ∀ node ∈ entry.2.items, ∀ key ∈ node.keys,
    key ∈ RuleDeclaration.fields

/-- A text is a document of the shape of sources, without unknown fields, and declares this. -/
def IsSpelled (text : String) (x : Declaration) : Prop :=
  ∃ entries, Toml.document text.toList = .ok entries ∧ HasKnownFields entries ∧
    ofEntries entries = .ok x

theorem ruleKeys_known {node : Node} {r : RuleDeclaration}
    (h : RuleDeclaration.ofNode node = .ok r) : ∀ key ∈ node.keys, key ∈ RuleDeclaration.fields := by
  unfold RuleDeclaration.ofNode at h
  rw [Toml.placed_eq_ok_iff] at h
  cases node with
  | table form mark entries =>
    intro key hkey
    obtain ⟨entry, hentry, rfl⟩ := List.mem_map.mp hkey
    cases hread : (Toml.Members.named entries).read RuleDeclaration.fields
        RuleDeclaration.Draft.field (fun _ key => Toml.unknownField RuleDeclaration.fields key) {} with
    | error e =>
      simp only [Toml.Node.toRecord, Toml.Node.members?, hread] at h
      rcases e with ⟨message, _ | mark'⟩ <;> cases h
    | ok draft => exact (Toml.Members.read_known hread entry hentry).1
  | _ => simp [Toml.Node.keys]

/-- A document that can be read as a declaration has known fields only. -/
theorem hasKnownFields_of_ofEntries {entries : Entries} {x : Declaration}
    (h : ofEntries entries = .ok x) : HasKnownFields entries := by
  have hknown := Toml.Members.read_known h
  refine ⟨fun entry hentry => (hknown entry hentry).1, ?_⟩
  intro entry hentry hname node hnode
  obtain ⟨before, after, hfield⟩ := (hknown entry hentry).2
  rw [hname] at hfield
  have hlist : ∃ rules, entry.2.toList RuleDeclaration.ofNode = .ok rules := by
    cases hl : entry.2.toList RuleDeclaration.ofNode with
    | ok rules => exact ⟨rules, rfl⟩
    | error e =>
      simp only [field, String.reduceEq, ↓reduceIte, hl] at hfield
      cases hfield
  obtain ⟨rules, hrules⟩ := hlist
  have hmapM : ∃ ys, entry.2.items.mapM RuleDeclaration.ofNode = .ok ys := by
    revert hrules hnode
    cases entry.2 <;> intro hnode hrules
    case array => exact ⟨rules, Toml.placed_eq_ok_iff.mp hrules⟩
    case tables => exact ⟨rules, Toml.placed_eq_ok_iff.mp hrules⟩
    all_goals simp [Toml.Node.items] at hnode
  obtain ⟨ys, hys⟩ := hmapM
  obtain ⟨r, hr⟩ := Toml.mapM_ok hys node hnode
  exact ruleKeys_known hr

theorem ofText_eq_ok_iff {text : String} {x : Declaration} :
    ofText text.toList = .ok x ↔ IsSpelled text x := by
  unfold ofText IsSpelled
  cases hdoc : Toml.document text.toList with
  | error line => simp
  | ok entries =>
    cases hx : ofEntries entries with
    | error misfit => simp [hx]
    | ok y =>
      simp only [Except.ok.injEq, exists_eq_left', hx]
      exact ⟨fun h => ⟨hasKnownFields_of_ofEntries hx, h⟩, fun h => h.2⟩

/-- The identifier of a unit that is declared under a file name with the given stem. -/
def identifier (stem : String) (x : Declaration) : String :=
  x.package?.elim "" Marked.text ++ "." ++ stem

end Declaration

/-! ### The batch -/

namespace ClassPath

/-- A unit lies in a folder or in a pack of a class path. -/
def Holds (d : Disk) (cp : ClassPath) (a : Artifact) : Prop :=
  ∃ entry ∈ cp,
    match entry with
    | .folder path =>
      ∃ file ∈ d.collect path Naming.artifactExtension, Artifact.read d file = .ok a
    | .pack _ content => a ∈ content.units.map Prod.snd

theorem mem_unitsOf {d : Disk} {folder : Path} {a : Artifact} :
    a ∈ (unitsOf d folder).1 ↔
      ∃ file ∈ d.collect folder Naming.artifactExtension, Artifact.read d file = .ok a := by
  unfold unitsOf
  induction d.collect folder Naming.artifactExtension with
  | nil => simp
  | cons file rest ih =>
    rw [List.foldr_cons]
    cases hread : Artifact.read d file with
    | error e => simp [ih, hread]
    | ok b => simp [ih, hread, eq_comm]

theorem declared?_eq_some_iff {a : Artifact} {item identifier : String} :
    declared? a = some (item, identifier) ↔
      a.kind = .item ∧ (∃ i, a.item = some i ∧ i.name = item) ∧ a.identifier = identifier := by
  unfold declared?
  cases a.kind <;> simp [← and_assoc, exists_and_right]

/-- The index of items knows an item exactly when an item unit of the class path declares it. -/
theorem lookup_items_isSome_iff {d : Disk} {cp : ClassPath} {item : String} :
    ((cp.items d).lookup item).isSome = true ↔
      ∃ a, cp.Holds d a ∧ a.kind = .item ∧ ∃ i, a.item = some i ∧ i.name = item := by
  have hmem : ∀ identifier, (item, identifier) ∈ cp.items d ↔
      ∃ a, cp.Holds d a ∧ declared? a = some (item, identifier) := by
    intro identifier
    simp only [items, List.mem_flatMap, Holds]
    constructor
    · rintro ⟨entry, hentry, hin⟩
      cases entry with
      | folder path =>
        obtain ⟨a, ha, hd⟩ := List.mem_filterMap.mp hin
        exact ⟨a, ⟨_, hentry, mem_unitsOf.mp ha⟩, hd⟩
      | pack path content =>
        obtain ⟨x, hx, hd⟩ := List.mem_filterMap.mp hin
        exact ⟨x.2, ⟨_, hentry, List.mem_map_of_mem hx⟩, hd⟩
    · rintro ⟨a, ⟨entry, hentry, hin⟩, hd⟩
      refine ⟨entry, hentry, ?_⟩
      cases entry with
      | folder path => exact List.mem_filterMap.mpr ⟨a, mem_unitsOf.mpr hin, hd⟩
      | pack path content =>
        obtain ⟨x, hx, rfl⟩ := List.mem_map.mp hin
        exact List.mem_filterMap.mpr ⟨x, hx, hd⟩
  rw [List.lookup_isSome_iff]
  constructor
  · rintro ⟨⟨name, identifier⟩, hin, heq⟩
    rw [beq_iff_eq] at heq
    subst heq
    obtain ⟨a, ha, hd⟩ := (hmem identifier).mp hin
    obtain ⟨hkind, hitem, -⟩ := declared?_eq_some_iff.mp hd
    exact ⟨a, ha, hkind, hitem⟩
  · rintro ⟨a, ha, hkind, hitem⟩
    have hd := declared?_eq_some_iff.mpr ⟨hkind, hitem, rfl⟩
    exact ⟨(item, a.identifier), (hmem a.identifier).mpr ⟨a, ha, hd⟩, beq_self_eq_true _⟩

end ClassPath

namespace Link

theorem duplicates_eq_nil_iff {earlier batch : List CheckedUnit} :
    duplicates earlier batch = [] ↔
      (batch.map fun p => p.unit.identifier).Nodup ∧
        ∀ p ∈ batch, ∀ q ∈ earlier, q.unit.identifier ≠ p.unit.identifier := by
  induction batch generalizing earlier with
  | nil => simp [duplicates]
  | cons p rest ih =>
    simp only [duplicates, List.append_eq_nil_iff, ih, List.map_cons, List.nodup_cons,
      List.mem_map, not_exists, not_and, List.mem_cons, forall_eq_or_imp]
    cases hf : earlier.find? fun q => q.unit.identifier == p.unit.identifier with
    | some q =>
      have hq : q.unit.identifier = p.unit.identifier := by simpa using List.find?_some hf
      simp only [reduceCtorEq, false_and, false_iff]
      rintro ⟨-, hearlier, -⟩
      exact hearlier q (List.mem_of_find?_eq_some hf) hq
    | none =>
      have hearlier : ∀ q ∈ earlier, q.unit.identifier ≠ p.unit.identifier := by simpa using hf
      simp only [true_and]
      constructor
      · rintro ⟨hnodup, hrest⟩
        exact ⟨⟨fun q hq he => (hrest q hq).1 he.symm, hnodup⟩, hearlier,
          fun q hq => (hrest q hq).2⟩
      · rintro ⟨⟨hnew, hnodup⟩, -, hrest⟩
        exact ⟨hnodup, fun q hq => ⟨fun he => hnew q hq he.symm, hrest q hq⟩⟩

theorem baseProblems_eq_nil_iff {s : Scope} {p : CheckedUnit} :
    baseProblems s p = [] ↔ ∀ base ∈ p.unit.extends?, s.isBase base = true := by
  unfold baseProblems
  cases p.unit.extends? with
  | none => simp
  | some base => by_cases h : s.isBase base = true <;> simp [h]

theorem itemProblems_eq_nil_iff {s : Scope} {p : CheckedUnit}
    (hlines : p.itemLines.length = p.unit.methods.length) :
    itemProblems s p = [] ↔ ∀ item ∈ p.unit.methods.map Method.item,
      (s.itemClass? item).isSome = true := by
  have hfst : (p.unit.methods.zip p.itemLines).map Prod.fst = p.unit.methods :=
    List.map_fst_zip (Nat.le_of_eq hlines.symm)
  have hitems : p.unit.methods.map Method.item =
      (p.unit.methods.zip p.itemLines).map fun x => x.1.item := by
    conv_lhs => rw [← hfst]
    rw [List.map_map]
    rfl
  simp only [itemProblems, List.filterMap_eq_nil_iff, hitems, List.forall_mem_map]
  refine forall₂_congr fun x hx => ?_
  cases s.itemClass? x.1.item <;> simp

theorem lookup_declaredItems_isSome_iff {batch : List CheckedUnit} {item : String} :
    ((declaredItems batch).lookup item).isSome = true ↔
      ∃ declared ∈ batch.map fun p => p.unit.item, ∃ i, declared = some i ∧ i.name = item := by
  simp only [List.lookup_isSome_iff, declaredItems, List.mem_filterMap, List.mem_map,
    Option.map_eq_some_iff, beq_iff_eq]
  constructor
  · rintro ⟨_, ⟨p, hp, i, hi, rfl⟩, rfl⟩
    exact ⟨_, ⟨p, hp, rfl⟩, i, hi, rfl⟩
  · rintro ⟨_, ⟨p, hp, rfl⟩, i, hi, rfl⟩
    exact ⟨_, ⟨p, hp, i, hi, rfl⟩, rfl⟩

/-- Linking finds nothing wrong when identifiers are unique and all references can be followed. -/
theorem problems_eq_nil_iff {d : Disk} {cp : ClassPath} {batch : List CheckedUnit}
    (hlines : ∀ p ∈ batch, p.itemLines.length = p.unit.methods.length) :
    problems (.of d cp batch) batch = [] ↔
      (batch.map fun p => p.unit.identifier).Nodup ∧
      (∀ extended ∈ batch.map fun p => p.unit.extends?, ∀ base ∈ extended,
        base ∈ (batch.map fun p => p.unit.identifier) ∨ cp.contains d base = true) ∧
      ∀ items ∈ batch.map fun p => p.unit.methods.map Method.item, ∀ item ∈ items,
        (∃ declared ∈ batch.map fun p => p.unit.item, ∃ i, declared = some i ∧ i.name = item) ∨
          ∃ a, cp.Holds d a ∧ a.kind = .item ∧ ∃ i, a.item = some i ∧ i.name = item := by
  simp only [problems, List.append_eq_nil_iff, List.flatMap_eq_nil_iff, duplicates_eq_nil_iff,
    List.not_mem_nil, IsEmpty.forall_iff, implies_true, and_true, baseProblems_eq_nil_iff,
    List.forall_mem_map]
  refine and_congr Iff.rfl ?_
  rw [← forall₂_and]
  refine forall₂_congr fun p hp => and_congr ?_ ?_
  · simp only [Scope.isBase, Scope.of, Bool.or_eq_true, List.contains_iff_mem]
  · rw [itemProblems_eq_nil_iff (hlines p hp), List.forall_mem_map]
    refine forall₂_congr fun m hm => ?_
    rw [← lookup_declaredItems_isSome_iff, ← ClassPath.lookup_items_isSome_iff]
    simp only [Scope.itemClass?, Scope.of, Option.isSome_or, Bool.or_eq_true]

end Link

/-- A source holds this declaration, and it keeps to the language. -/
def Source.Declares (d : Disk) (s : Source) (x : Declaration) : Prop :=
  ∃ text, d.readText s.path = .ok text ∧ x.IsSpelled text ∧ x.IsProper s.path.stem

theorem Source.Declares.unique {d : Disk} {s : Source} {x y : Declaration}
    (h : Source.Declares d s x) (h' : Source.Declares d s y) : x = y := by
  obtain ⟨text, htext, hspelled, -⟩ := h
  obtain ⟨text', htext', hspelled', -⟩ := h'
  obtain rfl := Except.ok.inj (htext.symm.trans htext')
  exact Except.ok.inj ((Declaration.ofText_eq_ok_iff.mpr hspelled).symm.trans
    (Declaration.ofText_eq_ok_iff.mpr hspelled'))

/-- Sources with these declarations make a batch of the language: each is proper by itself, their
identifiers differ, and what they refer to is in the batch or on the class path. -/
structure InLanguage (d : Disk) (cp : ClassPath) (sources : List Source) (xs : List Declaration) :
    Prop where
  declared : List.Forall₂ (Source.Declares d) sources xs
  distinct : (sources.zipWith (fun s x => x.identifier s.path.stem) xs).Nodup
  bases : ∀ x ∈ xs, ∀ base ∈ x.base?,
    base.text ∈ sources.zipWith (fun s x => x.identifier s.path.stem) xs ∨
      cp.contains d base.text = true
  items : ∀ x ∈ xs, ∀ r ∈ x.rules,
    (∃ y ∈ xs, ∃ i, y.item = some i ∧ i.name = r.item.text) ∨
      ∃ a, cp.Holds d a ∧ a.kind = .item ∧ ∃ i, a.item = some i ∧ i.name = r.item.text

namespace Builtin

/-- What linking sees of some sources and their declarations. -/
structure Describes (sources : List Source) (xs : List Declaration) (batch : List CheckedUnit) :
    Prop where
  identifiers : (batch.map fun p => p.unit.identifier) =
    sources.zipWith (fun s x => x.identifier s.path.stem) xs
  bases : (batch.map fun p => p.unit.extends?) = xs.map fun x => x.base?.map Marked.text
  declared : (batch.map fun p => p.unit.item) = xs.map Declaration.item
  items : (batch.map fun p => p.unit.methods.map Method.item) =
    xs.map fun x => x.rules.map fun r => r.item.text
  lines : ∀ p ∈ batch, p.itemLines.length = p.unit.methods.length

/-- Every rule of a proper declaration becomes a method on its item. -/
theorem items_filterMap_method? {rules : List RuleDeclaration}
    (h : ∀ r ∈ rules, r.IsProper) :
    (rules.filterMap Check.method?).map Method.item = rules.map fun r => r.item.text := by
  induction rules with
  | nil => rfl
  | cons r rest ih =>
    obtain ⟨t, ht⟩ := Trigger.read?_isSome_iff.mpr (h r List.mem_cons_self).trigger
    rw [List.filterMap_cons]
    simp only [Check.method?, ht, Option.map_some, List.map_cons]
    rw [← ih fun q hq => h q (List.mem_cons_of_mem r hq)]

theorem Describes.cons {s : Source} {x : Declaration} {text : String} {sources : List Source}
    {xs : List Declaration} {batch : List CheckedUnit} (hx : x.IsProper s.path.stem)
    (h : Describes sources xs batch) :
    Describes (s :: sources) (x :: xs) (Check.checked s.path text x :: batch) := by
  have hitems := items_filterMap_method? hx.rules
  refine ⟨?_, ?_, ?_, ?_, ?_⟩
  · rw [List.map_cons, h.identifiers, List.zipWith_cons_cons]
    rfl
  · rw [List.map_cons, h.bases]
    rfl
  · rw [List.map_cons, h.declared, List.map_cons]
    rfl
  · rw [List.map_cons, h.items]
    exact congrArg (· :: _) hitems
  · intro p hp
    rcases List.mem_cons.mp hp with rfl | hp
    · have hlength := congrArg List.length hitems
      simp only [List.length_map] at hlength
      simpa [Check.checked, Check.unitOf] using hlength.symm
    · exact h.lines p hp

theorem checkAll_of_declares {d : Disk} {sources : List Source} {xs : List Declaration}
    (h : List.Forall₂ (Source.Declares d) sources xs) :
    ∃ batch, checkAll d sources = (batch, []) ∧ Describes sources xs batch := by
  induction h with
  | nil => exact ⟨[], rfl, ⟨rfl, rfl, rfl, rfl, by simp⟩⟩
  | cons hs _ ih =>
    obtain ⟨text, htext, hx, hproper⟩ := hs
    obtain ⟨batch, hbatch, hdescribes⟩ := ih
    have hcheck := Check.ofPath_eq_ok_iff.mpr
      ⟨text, _, htext, Declaration.ofText_eq_ok_iff.mpr hx, hproper, rfl⟩
    refine ⟨Check.checked _ text _ :: batch, ?_, hdescribes.cons hproper⟩
    simp only [checkAll, hbatch, hcheck]

/-- The check of all sources finds nothing exactly when each holds a proper declaration. -/
theorem checkAll_snd_eq_nil_iff {d : Disk} {sources : List Source} :
    (checkAll d sources).2 = [] ↔ ∃ xs, List.Forall₂ (Source.Declares d) sources xs := by
  constructor
  · induction sources with
    | nil => exact fun _ => ⟨[], .nil⟩
    | cons s rest ih =>
      intro h
      cases hs : Check.ofPath d s.path with
      | error found =>
        simp only [checkAll, hs, List.append_eq_nil_iff] at h
        exact absurd h.1 (Check.ofPath_error_ne_nil hs)
      | ok p =>
        simp only [checkAll, hs] at h
        obtain ⟨text, x, htext, hx, hproper, -⟩ := Check.ofPath_eq_ok_iff.mp hs
        obtain ⟨xs, hxs⟩ := ih h
        exact ⟨x :: xs, .cons ⟨text, htext, Declaration.ofText_eq_ok_iff.mp hx, hproper⟩ hxs⟩
  · rintro ⟨xs, hxs⟩
    obtain ⟨batch, hbatch, -⟩ := checkAll_of_declares hxs
    rw [hbatch]

/-- The batch links exactly when its references can be followed. -/
theorem problems_eq_nil_iff {d : Disk} {cp : ClassPath} {sources : List Source}
    {xs : List Declaration} {batch : List CheckedUnit}
    (hdeclared : List.Forall₂ (Source.Declares d) sources xs) (h : Describes sources xs batch) :
    Link.problems (.of d cp batch) batch = [] ↔ InLanguage d cp sources xs := by
  rw [Link.problems_eq_nil_iff h.lines, h.identifiers, h.bases, h.declared, h.items]
  simp only [Option.mem_def, Option.map_eq_some_iff, forall_exists_index, and_imp,
    forall_apply_eq_imp_iff₂, List.mem_map, exists_exists_and_eq_and]
  exact ⟨fun ⟨hdistinct, hbases, hitems⟩ => ⟨hdeclared, hdistinct, hbases, hitems⟩,
    fun hl => ⟨hl.distinct, hl.bases, hl.items⟩⟩

/-- The diagnostics of a compilation. -/
def Result.diagnostics (x : Result) : List Diagnostic :=
  match x.outcome with
  | .ok o => o.diagnostics
  | .error _ => []

theorem length_writeAll {root : Path} {units : List Artifact} {d d' : Disk} {written : List Path}
    (h : writeAll root units d = (.ok written, d')) : written.length = units.length := by
  induction units generalizing d d' written with
  | nil =>
    simp only [writeAll, Prod.mk.injEq, Except.ok.injEq] at h
    simp [← h.1]
  | cons a rest ih =>
    rw [writeAll] at h
    rcases ha : a.write d root with ⟨_ | path, d₁⟩
    · simp [ha] at h
    · rcases hrest : writeAll root rest d₁ with ⟨_ | paths, d₂⟩
      · simp [ha, hrest] at h
      · simp only [ha, hrest, Prod.mk.injEq, Except.ok.injEq] at h
        rw [← h.1, List.length_cons, List.length_cons, ih hrest]

/-- A compilation ends in one of three ways: it reports what is wrong and leaves the disk alone,
an operation on the disk fails, or all units are stored. -/
theorem compile_cases (d : Disk) (sources : List Source) (cp : ClassPath) (root : Path) :
    ∃ batch found, checkAll d sources = (batch, found) ∧
      ((found ++ Link.problems (.of d cp batch) batch ≠ [] ∧
          (compile d sources cp root).outcome = .ok { sources := sources.length, diagnostics :=
            (found ++ Link.problems (.of d cp batch) batch).mergeSort Diagnostic.le } ∧
          (compile d sources cp root).disk = d) ∨
        (found ++ Link.problems (.of d cp batch) batch = [] ∧
          ((∃ e, (compile d sources cp root).outcome = .error e) ∨
            ∃ written d₁ d₂, d.makeFolders root = (.ok (), d₁) ∧
              writeAll root (batch.map (Link.linked (.of d cp batch))) d₁ = (.ok written, d₂) ∧
              (compile d sources cp root).outcome = .ok { sources := sources.length, written } ∧
              (compile d sources cp root).disk = d₂))) := by
  rcases hcheck : checkAll d sources with ⟨batch, found⟩
  refine ⟨batch, found, rfl, ?_⟩
  simp only [compile, hcheck]
  cases hall : found ++ Link.problems (.of d cp batch) batch with
  | cons x rest => exact .inl ⟨List.cons_ne_nil _ _, rfl, rfl⟩
  | nil =>
    refine .inr ⟨rfl, ?_⟩
    rcases hmade : d.makeFolders root with ⟨e | ⟨⟩, d₁⟩
    · exact .inl ⟨_, rfl⟩
    · dsimp only
      rcases hwrite : writeAll root (batch.map (Link.linked (.of d cp batch))) d₁ with
        ⟨e | written, d₂⟩
      · exact .inl ⟨_, rfl⟩
      · exact .inr ⟨written, d₁, d₂, rfl, hwrite, rfl, rfl⟩

theorem length_checkAll {d : Disk} {sources : List Source} {xs : List Declaration}
    {batch : List CheckedUnit} (hdeclared : List.Forall₂ (Source.Declares d) sources xs)
    (h : Describes sources xs batch) : batch.length = sources.length := by
  have hlength := congrArg List.length h.identifiers
  simp only [List.length_map, List.length_zipWith, hdeclared.length_eq, Nat.min_self] at hlength
  rw [hlength, hdeclared.length_eq]

/-- The compiler reports nothing exactly for the batches of its language. When it reports
something, the disk is as it was and nothing is written; when it gives an outcome without a
diagnostic, it has written one artifact for each source. -/
theorem diagnostics_eq_nil_iff (d : Disk) (sources : List Source) (cp : ClassPath) (root : Path) :
    ((compile d sources cp root).diagnostics = [] ↔ ∃ xs, InLanguage d cp sources xs) ∧
    ((compile d sources cp root).diagnostics ≠ [] →
      (compile d sources cp root).disk = d ∧
        ∃ o, (compile d sources cp root).outcome = .ok o ∧ o.written = []) ∧
    ∀ o, (compile d sources cp root).outcome = .ok o → o.diagnostics = [] →
      o.written.length = sources.length := by
  obtain ⟨batch, found, hcheck, hcases⟩ := compile_cases d sources cp root
  -- the diagnostics of both passes decide which way the compilation goes
  have hclean : found ++ Link.problems (.of d cp batch) batch = [] ↔
      ∃ xs, InLanguage d cp sources xs := by
    rw [List.append_eq_nil_iff]
    constructor
    · rintro ⟨rfl, hlink⟩
      obtain ⟨xs, hxs⟩ := checkAll_snd_eq_nil_iff.mp (congrArg Prod.snd hcheck)
      obtain ⟨batch', hbatch', hdescribes⟩ := checkAll_of_declares hxs
      obtain rfl : batch = batch' := congrArg Prod.fst (hcheck.symm.trans hbatch')
      exact ⟨xs, (problems_eq_nil_iff hxs hdescribes).mp hlink⟩
    · rintro ⟨xs, hxs⟩
      obtain ⟨batch', hbatch', hdescribes⟩ := checkAll_of_declares hxs.declared
      rw [hcheck, Prod.mk.injEq] at hbatch'
      obtain ⟨rfl, rfl⟩ := hbatch'
      exact ⟨rfl, (problems_eq_nil_iff hxs.declared hdescribes).mpr hxs⟩
  rw [← hclean]
  rcases hcases with ⟨hne, houtcome, hdisk⟩ | ⟨hnil, ⟨e, houtcome⟩ | ⟨written, d₁, d₂, -, hwrite,
    houtcome, -⟩⟩
  · have hsorted : (found ++ Link.problems (.of d cp batch) batch).mergeSort Diagnostic.le ≠ [] := by
      rwa [ne_eq, ← List.length_eq_zero_iff, List.length_mergeSort, List.length_eq_zero_iff]
    simp only [Result.diagnostics, houtcome]
    refine ⟨iff_of_false hsorted hne, fun _ => ⟨hdisk, _, rfl, rfl⟩, ?_⟩
    intro o ho hempty
    cases ho
    exact absurd hempty hsorted
  · simp only [Result.diagnostics, houtcome]
    exact ⟨iff_of_true trivial hnil, fun h => absurd rfl h, fun o ho => by cases ho⟩
  · simp only [Result.diagnostics, houtcome]
    refine ⟨iff_of_true trivial hnil, fun h => absurd rfl h, ?_⟩
    intro o ho _
    cases ho
    obtain ⟨xs, hxs⟩ := hclean.mp hnil
    obtain ⟨batch', hbatch', hdescribes⟩ := checkAll_of_declares hxs.declared
    obtain rfl : batch = batch' := congrArg Prod.fst (hcheck.symm.trans hbatch')
    rw [length_writeAll hwrite, List.length_map, length_checkAll hxs.declared hdescribes]

/-- One source alone on a disk. -/
def oneSource : Source := ⟨⟨"A.rule"⟩, "A", .none, true⟩

def oneSourceDisk (text : String) : Disk :=
  { entries := [(["A.rule"], .file (Text.encode text) false)] }

/-- A package is all that a source has to declare; without one nothing is written. -/
theorem diagnostics_of_oneSource :
    (∃ xs, InLanguage (oneSourceDisk "package = 'p'") [] [oneSource] xs) ∧
    (compile (oneSourceDisk "name = 'A'") [oneSource] [] ⟨"out"⟩).disk = oneSourceDisk "name = 'A'" ∧
    ∃ o, (compile (oneSourceDisk "package = 'p'") [oneSource] [] ⟨"out"⟩).outcome = .ok o ∧
      o.written.length = 1 := by
  obtain ⟨haccepts, -, hwritten⟩ :=
    diagnostics_eq_nil_iff (oneSourceDisk "package = 'p'") [oneSource] [] ⟨"out"⟩
  obtain ⟨-, hrefused, -⟩ :=
    diagnostics_eq_nil_iff (oneSourceDisk "name = 'A'") [oneSource] [] ⟨"out"⟩
  have hclean : (compile (oneSourceDisk "package = 'p'") [oneSource] [] ⟨"out"⟩).diagnostics = [] := by
    decide +kernel
  refine ⟨haccepts.mp hclean, (hrefused (by decide +kernel)).1, ?_⟩
  have hok : (compile (oneSourceDisk "package = 'p'") [oneSource] [] ⟨"out"⟩).outcome.isOk = true := by
    decide +kernel
  cases ho : (compile (oneSourceDisk "package = 'p'") [oneSource] [] ⟨"out"⟩).outcome with
  | error e =>
    rw [ho] at hok
    cases hok
  | ok o =>
    rw [Result.diagnostics, ho] at hclean
    exact ⟨o, rfl, hwritten o ho hclean⟩

end Builtin

end LiveRules
