import LiveRules.Artifact
import LiveRules.Json.Printer
import LiveRules.Json.Record

/-!
The stored form of compiled units. `Artifact.toJson` writes the fields in a fixed order, leaving
out a missing base, item or label; `Artifact.ofJson?` reads what it writes, and also units with
other field orders, defaults left out, and unknown fields.
-/

namespace LiveRules

open Json in
def optional {α : Type} (toJson : α → Json) : Option α → Json
  | none => .null
  | some x => toJson x

def skippable {α : Type} (key : String) (toJson : α → Json) : Option α → List (String × Json)
  | none => []
  | some x => [(key, toJson x)]

def Action.toJson : Action → Json
  | .command item value => .fields [("item", .string item), ("command", .string value)]
  | .update item value => .fields [("item", .string item), ("update", .string value)]
  | .log text => .fields [("log", .string text)]

def Item.toJson (i : Item) : Json :=
  .fields ([("name", .string i.name), ("type", .string i.type)] ++
    skippable "label" .string i.label)

def Method.toJson (m : Method) : Json :=
  .fields [
    ("name", .string m.name),
    ("item_name", .string m.item),
    ("item_class", optional .string m.itemClass),
    ("trigger", .string m.trigger.word),
    ("from", optional .string m.fromState),
    ("to", optional .string m.toState),
    ("update", optional .string m.update),
    ("lt", optional .float m.bounds.lt),
    ("lte", optional .float m.bounds.lte),
    ("gt", optional .float m.bounds.gt),
    ("gte", optional .float m.bounds.gte),
    ("event_parameter", .bool m.takesEvent),
    ("actions", .array (m.actions.map Action.toJson))]

def Artifact.toJson (a : Artifact) : Json :=
  .fields ([
    ("identifier", .string a.identifier),
    ("kind", .string a.kind.word),
    ("is_abstract", .bool a.isAbstract),
    ("constructible", .bool a.constructible)] ++
    skippable "extends" .string a.extends? ++
    [("rules", .array (a.methods.map Method.toJson))] ++
    skippable "item" Item.toJson a.item ++
    [("source_hash", .string a.sourceHash)])

/-- The text of an object's field, if the field is there once and is a text. -/
def textField? (members : List (Option String × Json)) (key : String) : Option String :=
  match Json.valuesOf key members with
  | [.text t] => t
  | _ => none

/-- An action inside `outer` arrays and objects. -/
def Action.ofJson? (outer : Nat) (json : Json) : Option Action :=
  if json.isKept outer then
    match json with
    | .object members => Action.ofTexts? (textField? members)
    | _ => none
  else none

def Item.ofJson? (json : Json) : Option Item :=
  match json.record? ["name", "type", "label"] 2 with
  | some [name, type, label] => do
    some {
      name := ← Json.required Json.string? name
      type := ← Json.required Json.string? type
      label := ← Json.nullable Json.string? label }
  | _ => none

def Method.keys : List String :=
  ["name", "item_name", "item_class", "trigger", "from", "to", "update", "lt", "lte", "gt", "gte",
    "event_parameter", "actions"]

/-- A method that lies inside `outer` arrays and objects. -/
def Method.ofJson? (outer : Nat) (json : Json) : Option Method :=
  match json.record? Method.keys 13 with
  | some [name, item, itemClass, trigger, fromState, toState, update, lt, lte, gt, gte, takesEvent,
      actions] => do
    some {
      name := ← Json.required Json.string? name
      item := ← Json.required Json.string? item
      itemClass := ← Json.nullable Json.string? itemClass
      trigger := ← Json.required (Json.word? Trigger.ofWord?) trigger
      fromState := ← Json.nullable Json.string? fromState
      toState := ← Json.nullable Json.string? toState
      update := ← Json.nullable Json.string? update
      bounds := {
        lt := ← Json.nullable Json.float? lt
        lte := ← Json.nullable Json.float? lte
        gt := ← Json.nullable Json.float? gt
        gte := ← Json.nullable Json.float? gte }
      takesEvent := ← Json.required Json.bool? takesEvent
      actions := ← Json.required (Json.list? (Action.ofJson? (outer + 2))) actions }
  | _ => none

def Artifact.keys : List String :=
  ["identifier", "kind", "is_abstract", "constructible", "extends", "rules", "item", "source_hash"]

/-- A unit that lies inside `outer` arrays and objects. -/
def Artifact.ofJsonWithin? (outer : Nat) (json : Json) : Option Artifact :=
  match json.record? Artifact.keys 4 with
  | some [identifier, kind, isAbstract, constructible, extends?, methods, item, sourceHash] => do
    some {
      identifier := ← Json.required Json.string? identifier
      kind := ← Json.required (Json.word? UnitKind.ofWord?) kind
      isAbstract := ← Json.withDefault Json.bool? false isAbstract
      constructible := ← Json.required Json.bool? constructible
      extends? := ← Json.nullable Json.string? extends?
      methods := ← Json.withDefault (Json.list? (Method.ofJson? (outer + 2))) [] methods
      item := ← Json.nullable Item.ofJson? item
      sourceHash := ← Json.withDefault Json.string? "" sourceHash }
  | _ => none

def Artifact.ofJson? (json : Json) : Option Artifact := Artifact.ofJsonWithin? 0 json

end LiveRules
