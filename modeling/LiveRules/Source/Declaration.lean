import LiveRules.Artifact
import LiveRules.Toml.Reader
import LiveRules.Toml.Shape

/-!
What a source says. A source is a document that declares one unit: its package, its name, the unit
it extends, rules and perhaps an item. Unknown fields are refused.
-/

namespace LiveRules

open Toml

structure RuleDeclaration where
  name : Marked
  item : Marked
  trigger : Marked
  fromState : Option String
  toState : Option String
  update : Option String
  bounds : Bounds
  takesEvent : Bool
  actions : List Action
  deriving Inhabited

structure Declaration where
  package? : Option Marked := none
  name? : Option Marked := none
  kind : UnitKind := .rule
  isAbstract : Bool := false
  constructible : Bool := true
  base? : Option Marked := none
  rules : List RuleDeclaration := []
  item : Option Item := none
  deriving Inhabited

/-- Why a text declares no unit, and in which line. -/
structure DeclarationError where
  line : Nat
  message : String
  deriving DecidableEq, Inhabited

def Action.ofNode : Node → Fitted Action
  | .table _ _ entries =>
    let text? (key : String) : Option String :=
      match Toml.get? key entries with
      | some (.string _ s) => some s
      | _ => none
    match Action.ofTexts? text? with
    | some action => .ok action
    | none => .error ⟨"data did not match any variant of untagged enum Action", none⟩
  | _ => .error ⟨"data did not match any variant of untagged enum Action", none⟩

namespace Item

structure Draft where
  name : Option String := none
  type : Option String := none
  label : Option String := none

def Draft.field (x : Draft) (name : String) (node : Node) : Fitted Draft :=
  if name = "name" then do return { x with name := some (← node.toText) }
  else if name = "type" then do return { x with type := some (← node.toText) }
  else do return { x with label := some (← node.toText) }

def Draft.finish (x : Draft) : Fitted Item := do
  return { name := ← needed "name" x.name, type := ← needed "type" x.type, label := x.label }

def ofNode (node : Node) : Fitted Item :=
  placed node.mark? do
    let draft ← node.toRecord "ItemDecl" ["name", "type", "label"] 2 Draft.field
      (fun x _ => .ok x) {}
    draft.finish

end Item

namespace RuleDeclaration

def fields : List String :=
  ["name", "item", "trigger", "from", "to", "update", "lt", "lte", "gt", "gte", "event", "actions"]

structure Draft where
  name : Option Marked := none
  item : Option Marked := none
  trigger : Option Marked := none
  fromState : Option String := none
  toState : Option String := none
  update : Option String := none
  bounds : Bounds := {}
  takesEvent : Bool := false
  actions : List Action := []

def Draft.field (x : Draft) (name : String) (node : Node) : Fitted Draft :=
  if name = "name" then do return { x with name := some (← node.toMarked) }
  else if name = "item" then do return { x with item := some (← node.toMarked) }
  else if name = "trigger" then do return { x with trigger := some (← node.toMarked) }
  else if name = "from" then do return { x with fromState := some (← node.toText) }
  else if name = "to" then do return { x with toState := some (← node.toText) }
  else if name = "update" then do return { x with update := some (← node.toText) }
  else if name = "lt" then do return { x with bounds.lt := some (← node.toFloat) }
  else if name = "lte" then do return { x with bounds.lte := some (← node.toFloat) }
  else if name = "gt" then do return { x with bounds.gt := some (← node.toFloat) }
  else if name = "gte" then do return { x with bounds.gte := some (← node.toFloat) }
  else if name = "event" then do return { x with takesEvent := ← node.toBool }
  else do return { x with actions := ← node.toList Action.ofNode }

def Draft.finish (x : Draft) : Fitted RuleDeclaration := do
  return {
    name := ← needed "name" x.name
    item := ← needed "item" x.item
    trigger := ← needed "trigger" x.trigger
    fromState := x.fromState
    toState := x.toState
    update := x.update
    bounds := x.bounds
    takesEvent := x.takesEvent
    actions := x.actions }

def ofNode (node : Node) : Fitted RuleDeclaration :=
  placed node.mark? do
    let draft ← node.toRecord "RuleDoc" fields 10 Draft.field
      (fun _ key => unknownField fields key) {}
    draft.finish

end RuleDeclaration

namespace Declaration

def fields : List String :=
  ["package", "name", "kind", "abstract", "constructor", "extends", "rule", "item"]

def field (x : Declaration) (name : String) (node : Node) : Fitted Declaration :=
  if name = "package" then do return { x with package? := some (← node.toMarked) }
  else if name = "name" then do return { x with name? := some (← node.toMarked) }
  else if name = "kind" then do
    return { x with kind := ← node.toWord "`rule` or `item`" UnitKind.ofWord? }
  else if name = "abstract" then do return { x with isAbstract := ← node.toBool }
  else if name = "constructor" then do return { x with constructible := ← node.toBool }
  else if name = "extends" then do return { x with base? := some (← node.toMarked) }
  else if name = "rule" then do return { x with rules := ← node.toList RuleDeclaration.ofNode }
  else do return { x with item := some (← Item.ofNode node) }

def ofEntries (entries : Entries) : Fitted Declaration :=
  (Members.named entries).read fields field (fun _ key => unknownField fields key) {}

/-- What a text says that is no document at all. -/
def notDocument : String := "<toml syntax>"

def ofText (text : List Char) : Except DeclarationError Declaration :=
  match document text with
  | .error line => .error ⟨line, notDocument⟩
  | .ok entries =>
    match ofEntries entries with
    | .error misfit => .error ⟨misfit.mark.elim 0 (lineAt text), Text.trim misfit.message⟩
    | .ok x => .ok x

/-- The package that a text declares, if it is a document and the package is a text. What else the
document says does not matter. -/
def packageOf? (text : List Char) : Option String :=
  match document text with
  | .error _ => none
  | .ok entries =>
    match Toml.get? "package" entries with
    | some (.string _ s) => some s
    | _ => none

end Declaration

end LiveRules
