import LiveRules.Pack
import LiveRules.Proofs.Json.RoundTrip
import LiveRules.Proofs.Json.Spellings
import LiveRules.Proofs.Text.Cutting

/-!
The stored form of units. What is written for a unit can be read, whatever its texts and thresholds
are. It is read as the same unit as long as its thresholds come back from their decimal spelling; a
threshold that is not finite is not there any more.
-/

namespace LiveRules

theorem Text.decode?_encode (s : String) : Text.decode? (Text.encode s) = some s := by
  have hvalid : (Text.encode s).IsValidUTF8 := s.isValidUTF8
  rw [decode?, String.fromUTF8?, dif_pos hvalid]
  rfl

theorem Disk.readText_of_encode {d : Disk} {p : Path} {s : String}
    (h : d.read p = .ok (Text.encode s)) : d.readText p = .ok s := by
  simp only [readText, h, bind, Except.bind, Text.decode?_encode]

namespace Json

/-! ### Records -/

theorem mapM_map_eq {α β γ : Type} {f : β → Option γ} {g : α → β} {k : α → γ} {xs : List α}
    (h : ∀ x ∈ xs, f (g x) = some (k x)) : (xs.map g).mapM f = some (xs.map k) := by
  induction xs with
  | nil => rfl
  | cons x xs ih =>
    rw [List.map_cons, List.mapM_cons, h x List.mem_cons_self,
      ih fun y hy => h y (List.mem_cons_of_mem _ hy)]
    rfl

/-- The fields that have a value. -/
def given (pairs : List (String × Option Json)) : List (String × Json) :=
  pairs.filterMap fun x => x.2.map (x.1, ·)

theorem valuesOf_given_of_not_mem {pairs : List (String × Option Json)} {key : String}
    (h : key ∉ pairs.map (·.1)) :
    valuesOf key ((given pairs).map fun m => (some m.1, m.2)) = [] := by
  rw [valuesOf, List.map_eq_nil_iff, List.filter_eq_nil_iff]
  intro m hm hkey
  obtain ⟨x, hx, rfl⟩ := List.mem_map.mp hm
  obtain ⟨y, hy, hyx⟩ := List.mem_filterMap.mp hx
  obtain ⟨json, -, rfl⟩ := Option.map_eq_some_iff.mp hyx
  have heq : y.1 = key := by simpa using hkey
  exact h (heq ▸ List.mem_map_of_mem hy)

theorem valuesOf_given {pairs : List (String × Option Json)} {key : String} {value : Option Json}
    (h : (pairs.map (·.1)).Nodup) (hmem : (key, value) ∈ pairs) :
    valuesOf key ((given pairs).map fun m => (some m.1, m.2)) = value.toList := by
  induction pairs with
  | nil => cases hmem
  | cons x pairs ih =>
    rw [List.map_cons, List.nodup_cons] at h
    rcases List.mem_cons.mp hmem with rfl | hmem
    · have hnone := valuesOf_given_of_not_mem h.1
      rw [valuesOf] at hnone ⊢
      cases value <;> simpa [given] using hnone
    · have hne : x.1 ≠ key := fun he => h.1 (he ▸ List.mem_map_of_mem hmem)
      have htail := ih h.2 hmem
      rw [valuesOf] at htail ⊢
      obtain ⟨k, v⟩ := x
      cases v <;> simpa [given, hne] using htail

/-- A record is read as the values it was written with. -/
theorem record?_given (pairs : List (String × Option Json)) (keys : List String) (least : Nat)
    (hkeys : pairs.map (·.1) = keys) (h : keys.Nodup) :
    (fields (given pairs)).record? keys least = some (pairs.map (·.2)) := by
  subst hkeys
  have hnamed : ((given pairs).map fun m => (some m.1, m.2)).any (·.1.isNone) = false := by
    simp
  rw [fields, record?, if_neg (by rw [hnamed]; exact Bool.false_ne_true)]
  refine mapM_map_eq fun x hx => ?_
  rw [valuesOf_given h hx]
  cases x.2 <;> rfl

theorem areSound_map {α : Type} {toJson : α → Json} (xs : List α)
    (h : ∀ x ∈ xs, (toJson x).isSound = true) : areSound (xs.map toJson) = true := by
  induction xs with
  | nil => rfl
  | cons x xs ih =>
    rw [List.map_cons, areSound, h x List.mem_cons_self,
      ih fun y hy => h y (List.mem_cons_of_mem _ hy), Bool.and_self]

theorem isSound_fields {members : List (String × Json)}
    (h : ∀ m ∈ members, m.2.isSound = true) : (fields members).isSound = true := by
  rw [fields, isSound]
  induction members with
  | nil => rfl
  | cons m members ih =>
    rw [List.map_cons, areSoundMembers, h m List.mem_cons_self,
      ih fun y hy => h y (List.mem_cons_of_mem _ hy)]
    rfl

theorem isSound_given {pairs : List (String × Option Json)}
    (h : ∀ x ∈ pairs, ∀ json ∈ x.2, json.isSound = true) : (fields (given pairs)).isSound = true := by
  refine isSound_fields fun m hm => ?_
  obtain ⟨x, hx, hxm⟩ := List.mem_filterMap.mp hm
  obtain ⟨json, hjson, rfl⟩ := Option.map_eq_some_iff.mp hxm
  exact h x hx json hjson

theorem list?_map {α : Type} {toJson : α → Json} {ofJson? : Json → Option α} {xs : List α}
    (h : ∀ x ∈ xs, ofJson? (toJson x) = some x) :
    list? ofJson? (.array (xs.map toJson)) = some xs := by
  rw [list?, mapM_map_eq (k := id) h, List.map_id]

/-! ### Thresholds -/

/-- What a threshold is read as that was stored: a number, or nothing when it is not finite. -/
def reread? (t : Float) : Option Float := float? (float t)

theorem float_of_not_isFinite {t : Float} (h : t.isFinite = false) : float t = .null := by
  rw [float, h]
  rfl

theorem isSome_reread? (t : Float) : (reread? t).isSome = t.isFinite := by
  cases h : t.isFinite with
  | true => exact isSome_float?_float h
  | false =>
    rw [reread?, float_of_not_isFinite h]
    rfl

theorem isSound_float (t : Float) : (float t).isSound = true := by
  cases h : t.isFinite with
  | true =>
    have hread := isSome_float?_float h
    rw [float, if_pos h] at hread ⊢
    exact hread
  | false =>
    rw [float_of_not_isFinite h]
    rfl

/-- A number comes back from the spelling it is stored with. -/
def Comes (t : Float) : Prop := float? (float t) = some t

/-- Every threshold comes back. -/
def ComesBack (x : Option Float) : Prop := ∀ t ∈ x, Comes t

theorem ComesBack.bind_reread? {x : Option Float} (h : ComesBack x) : x.bind reread? = x := by
  cases x with
  | none => rfl
  | some t => exact h t rfl

theorem nullable_of_some {α : Type} {value? : Json → Option α} {json : Json} {x : α}
    (h : value? json = some x) (hnull : value? .null = none) :
    nullable value? (some json) = some (some x) := by
  cases json with
  | null =>
    rw [hnull] at h
    cases h
  | _ => rw [nullable, h, Option.map_some]; rintro ⟨⟩

theorem nullable_float (x : Option Float) :
    nullable float? (some (optional float x)) = some (x.bind reread?) := by
  cases x with
  | none => rfl
  | some t =>
    cases h : t.isFinite with
    | true =>
      obtain ⟨y, hy⟩ := Option.isSome_iff_exists.mp (isSome_float?_float h)
      show nullable float? (some (float t)) = some (float? (float t))
      rw [nullable_of_some hy rfl, hy]
    | false =>
      show nullable float? (some (float t)) = some (float? (float t))
      rw [float_of_not_isFinite h]
      rfl

theorem isSound_optional_float (x : Option Float) : (optional float x).isSound = true := by
  cases x with
  | none => rfl
  | some t => exact isSound_float t

theorem isSound_optional_string (x : Option String) : (optional .string x).isSound = true := by
  cases x <;> rfl

theorem nullable_string (x : Option String) :
    nullable string? (some (optional .string x)) = some x := by
  cases x <;> rfl

end Json

/-! ### Units -/

open Json

/-- Every threshold of a method comes back from its spelling. -/
structure Bounds.ComeBack (b : Bounds) : Prop where
  lt : ComesBack b.lt
  lte : ComesBack b.lte
  gt : ComesBack b.gt
  gte : ComesBack b.gte

/-- The thresholds that are read where these were stored. -/
def Bounds.reread (b : Bounds) : Bounds :=
  ⟨b.lt.bind reread?, b.lte.bind reread?, b.gt.bind reread?, b.gte.bind reread?⟩

def Method.reread (m : Method) : Method := { m with bounds := m.bounds.reread }

/-- The unit that is read where this one was stored. -/
def Artifact.reread (a : Artifact) : Artifact := { a with methods := a.methods.map Method.reread }

theorem Bounds.ComeBack.reread {b : Bounds} (h : b.ComeBack) : b.reread = b := by
  rw [Bounds.reread, h.lt.bind_reread?, h.lte.bind_reread?, h.gt.bind_reread?, h.gte.bind_reread?]

theorem Action.ofJson?_toJson (a : Action) {outer : Nat} (h : outer < depthLimit) :
    Action.ofJson? outer a.toJson = some a := by
  have hkept : a.toJson.isKept outer = true := by
    rw [isKept, Bool.and_eq_true, decide_eq_true_iff]
    refine ⟨?_, ?_⟩
    · cases a <;> rfl
    · have hheight : a.toJson.height = 1 := by cases a <;> rfl
      omega
  unfold ofJson?
  rw [if_pos hkept]
  cases a <;>
    simp [toJson, fields, ofTexts?, textField?, valuesOf, Json.string]

theorem Action.isSound_toJson (a : Action) : a.toJson.isSound = true := by
  cases a <;> rfl

theorem UnitKind.ofWord?_word (k : UnitKind) : UnitKind.ofWord? k.word = some k := by
  cases k <;> decide

theorem Trigger.ofWord?_word (t : Trigger) : Trigger.ofWord? t.word = some t := by
  cases t <;> decide

def Item.pairs (i : Item) : List (String × Option Json) :=
  [("name", some (.string i.name)), ("type", some (.string i.type)),
    ("label", i.label.map .string)]

theorem Item.toJson_eq (i : Item) : i.toJson = .fields (given i.pairs) := by
  rw [toJson, pairs]
  cases i.label <;> rfl

theorem Item.ofJson?_toJson (i : Item) : Item.ofJson? i.toJson = some i := by
  have hrecord := record?_given i.pairs ["name", "type", "label"] 2 rfl (by decide)
  rw [toJson_eq, ofJson?]
  rw [hrecord]
  simp only [pairs, List.map_cons, List.map_nil]
  obtain ⟨name, type, label⟩ := i
  cases label <;> rfl

theorem Item.isSound_toJson (i : Item) : i.toJson.isSound = true := by
  rw [toJson_eq]
  refine isSound_given fun x hx json hjson => ?_
  simp only [pairs, List.mem_cons, List.not_mem_nil, or_false] at hx
  rcases hx with rfl | rfl | rfl
  · cases hjson
    rfl
  · cases hjson
    rfl
  · obtain ⟨label, -, rfl⟩ := Option.map_eq_some_iff.mp hjson
    rfl

def Method.pairs (m : Method) : List (String × Option Json) := [
  ("name", some (.string m.name)),
  ("item_name", some (.string m.item)),
  ("item_class", some (optional .string m.itemClass)),
  ("trigger", some (.string m.trigger.word)),
  ("from", some (optional .string m.fromState)),
  ("to", some (optional .string m.toState)),
  ("update", some (optional .string m.update)),
  ("lt", some (optional .float m.bounds.lt)),
  ("lte", some (optional .float m.bounds.lte)),
  ("gt", some (optional .float m.bounds.gt)),
  ("gte", some (optional .float m.bounds.gte)),
  ("event_parameter", some (.bool m.takesEvent)),
  ("actions", some (.array (m.actions.map Action.toJson)))]

theorem Method.toJson_eq (m : Method) : m.toJson = .fields (given m.pairs) := rfl

theorem Method.ofJson?_toJson (m : Method) {outer : Nat} (h : outer + 2 < depthLimit) :
    Method.ofJson? outer m.toJson = some m.reread := by
  have hrecord := record?_given m.pairs keys 13 rfl (by decide)
  have hactions : list? (Action.ofJson? (outer + 2)) (.array (m.actions.map Action.toJson)) =
      some m.actions := list?_map fun a _ => a.ofJson?_toJson h
  have htrigger : word? Trigger.ofWord? (.text (some m.trigger.word)) = some m.trigger :=
    m.trigger.ofWord?_word
  rw [toJson_eq, ofJson?]
  rw [hrecord]
  simp only [pairs, List.map_cons, List.map_nil]
  simp only [required, Option.bind_some, htrigger, hactions, nullable_string, nullable_float,
    Option.bind_eq_bind, Json.string, string?, bool?]
  rfl

theorem Method.isSound_toJson (m : Method) : m.toJson.isSound = true := by
  rw [toJson_eq]
  refine isSound_given fun x hx json hjson => ?_
  have hactions := areSound_map m.actions fun a _ => a.isSound_toJson
  simp only [pairs, List.mem_cons, List.not_mem_nil, or_false] at hx
  rcases hx with rfl | rfl | rfl | rfl | rfl | rfl | rfl | rfl | rfl | rfl | rfl | rfl | rfl <;>
    cases hjson
  all_goals
    first | rfl | exact hactions | exact isSound_optional_string _ | exact isSound_optional_float _

namespace Artifact

variable {a : Artifact}

/-- Every threshold of every rule comes back from its spelling. -/
def ComesBack (a : Artifact) : Prop := ∀ m ∈ a.methods, m.bounds.ComeBack

def pairs (a : Artifact) : List (String × Option Json) := [
  ("identifier", some (.string a.identifier)),
  ("kind", some (.string a.kind.word)),
  ("is_abstract", some (.bool a.isAbstract)),
  ("constructible", some (.bool a.constructible)),
  ("extends", a.extends?.map .string),
  ("rules", some (.array (a.methods.map Method.toJson))),
  ("item", a.item.map Item.toJson),
  ("source_hash", some (.string a.sourceHash))]

theorem toJson_eq (a : Artifact) : a.toJson = .fields (given a.pairs) := by
  rw [toJson, pairs]
  cases a.extends? <;> cases a.item <;> rfl

theorem reread_of_comesBack (h : a.ComesBack) : a.reread = a := by
  have hmethods : a.methods.map Method.reread = a.methods := by
    refine (List.map_congr_left fun m hm => ?_).trans (List.map_id _)
    rw [Method.reread, (h m hm).reread]
    rfl
  rw [reread, hmethods]

/-- What is written for a unit is read, however deep it lies in a document within the limits. -/
theorem ofJsonWithin?_toJson (a : Artifact) {outer : Nat} (houter : outer + 4 < depthLimit) :
    ofJsonWithin? outer a.toJson = some a.reread := by
  have hrecord := record?_given a.pairs keys 4 rfl (by decide)
  have hmethods : list? (Method.ofJson? (outer + 2)) (.array (a.methods.map Method.toJson)) =
      some (a.methods.map Method.reread) :=
    mapM_map_eq fun m _ => m.ofJson?_toJson (by omega)
  have hkind : word? UnitKind.ofWord? (.text (some a.kind.word)) = some a.kind := a.kind.ofWord?_word
  have hextends : nullable string? (a.extends?.map .string) = some a.extends? := by
    cases a.extends? <;> rfl
  have hitem : nullable Item.ofJson? (a.item.map Item.toJson) = some a.item := by
    cases a.item with
    | none => rfl
    | some i => exact nullable_of_some i.ofJson?_toJson rfl
  rw [toJson_eq, ofJsonWithin?]
  rw [hrecord]
  simp only [pairs, List.map_cons, List.map_nil]
  simp only [required, withDefault, Option.bind_some, hkind, hmethods, hextends, hitem,
    Option.bind_eq_bind, Json.string, string?, bool?]
  rfl

theorem isSound_toJson (a : Artifact) : a.toJson.isSound = true := by
  rw [toJson_eq]
  refine isSound_given fun x hx json hjson => ?_
  have hmethods := areSound_map a.methods fun m _ => m.isSound_toJson
  simp only [pairs, List.mem_cons, List.not_mem_nil, or_false] at hx
  rcases hx with rfl | rfl | rfl | rfl | rfl | rfl | rfl | rfl
  case inr.inr.inr.inr.inl =>
    obtain ⟨base, -, rfl⟩ := Option.map_eq_some_iff.mp hjson
    rfl
  case inr.inr.inr.inr.inr.inr.inl =>
    obtain ⟨i, -, rfl⟩ := Option.map_eq_some_iff.mp hjson
    exact i.isSound_toJson
  all_goals
    cases hjson
    first | rfl | exact hmethods

/-- A stored unit is read back. -/
theorem ofText?_text (a : Artifact) : ofText? a.text = some a.reread := by
  rw [ofText?, text, parse?_pretty a.isSound_toJson, Option.bind_some, ofJson?,
    ofJsonWithin?_toJson a (by decide)]

theorem read_of_encode {d : Disk} {p : Path} (hp : d.read p = .ok (Text.encode a.text)) :
    read d p = .ok a.reread := by
  rw [read, Disk.readText_of_encode hp]
  simp only [ofText?_text]

theorem read_eq_ok {d : Disk} {p : Path} (h : a.ComesBack)
    (hp : d.read p = .ok (Text.encode a.text)) : read d p = .ok a := by
  rw [read_of_encode hp, reread_of_comesBack h]

end Artifact

end LiveRules
