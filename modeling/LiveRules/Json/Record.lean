import LiveRules.Json.Reader

/-!
Reading records from JSON. A record is an object with named fields, or an array that lists the
fields in their order. A field named twice is refused, an unknown one is skipped.
-/

namespace LiveRules.Json

/-- The values of a key, first to last. -/
def valuesOf (key : String) (members : List (Option String × Json)) : List Json :=
  (members.filter fun m => m.1 == some key).map (·.2)

/-- The value of each field, where the document gives one. In an array the first `least` fields
are all there. -/
def record? (keys : List String) (least : Nat) : Json → Option (List (Option Json))
  | .object members =>
    if members.any (·.1.isNone) then none
    else keys.mapM fun key =>
      match valuesOf key members with
      | [] => some none
      | [value] => some (some value)
      | _ => none
  | .array items =>
    if items.length < least ∨ keys.length < items.length then none
    else some (items.map some ++ List.replicate (keys.length - items.length) none)
  | _ => none

def string? : Json → Option String
  | .text t => t
  | _ => none

def bool? : Json → Option Bool
  | .bool b => some b
  | _ => none

def float? : Json → Option Float
  | .number literal => number? literal.toList
  | _ => none

def list? {α : Type} (item? : Json → Option α) : Json → Option (List α)
  | .array items => items.mapM item?
  | _ => none

/-- A field that must be there. -/
def required {α : Type} (value? : Json → Option α) (field : Option Json) : Option α :=
  field.bind value?

/-- A field with a value to take when it is not there. -/
def withDefault {α : Type} (value? : Json → Option α) (default : α) : Option Json → Option α
  | none => some default
  | some json => value? json

/-- A field that may be missing or null. -/
def nullable {α : Type} (value? : Json → Option α) : Option Json → Option (Option α)
  | none => some none
  | some .null => some none
  | some json => (value? json).map some

/-- A word out of a list of words: the word itself, or an object with the word as its only key and
null as the value. -/
def word? {α : Type} (ofWord? : String → Option α) : Json → Option α
  | .text t => t.bind ofWord?
  | .object [(key, .null)] => key.bind ofWord?
  | _ => none

mutual

/-- Whether every text names its characters and every number is within reach. -/
def isSound : Json → Bool
  | .number literal => (number? literal.toList).isSome
  | .text t => t.isSome
  | .array items => areSound items
  | .object members => areSoundMembers members
  | _ => true

def areSound : List Json → Bool
  | [] => true
  | item :: rest => isSound item && areSound rest

def areSoundMembers : List (Option String × Json) → Bool
  | [] => true
  | member :: rest => member.1.isSome && isSound member.2 && areSoundMembers rest

end

/-- How deep arrays and objects may lie in one another where values are kept. -/
def depthLimit : Nat := 127

/-- Whether a value can be kept whole that lies inside `outer` arrays and objects. -/
def isKept (outer : Nat) (json : Json) : Bool :=
  json.isSound && outer + json.height ≤ depthLimit

end LiveRules.Json
