import LiveRules.Decimal.Text
import LiveRules.Text.Cut
import LiveRules.Text.Quoted
import LiveRules.Toml.Basic

/-!
Fitting documents to records. A value that does not fit is described, with what was expected in
its place and where it stands; the first misfit in the order of the document counts.
-/

namespace LiveRules.Toml

structure Misfit where
  message : String
  mark : Option Mark := none
  deriving DecidableEq, Inhabited

abbrev Fitted (α : Type) := Except Misfit α

/-- Says where a misfit is, unless that is said already. -/
def placed {α : Type} (mark : Option Mark) : Fitted α → Fitted α
  | .error ⟨message, none⟩ => .error ⟨message, mark⟩
  | fitted => fitted

def Node.described : Node → String
  | .string _ s => "string " ++ Text.quoted s
  | .integer _ n => "integer `" ++ toString n ++ "`"
  | .float _ x => "floating point `" ++ Decimal.pointed.write x ++ "`"
  | .boolean _ b => if b then "boolean `true`" else "boolean `false`"
  | .date _ | .table .. => "map"
  | .array .. | .tables .. => "sequence"

def Node.noun : Node → String
  | .string .. => "string"
  | .integer .. => "integer"
  | .float .. => "float"
  | .boolean .. => "boolean"
  | .date .. => "datetime"
  | .array .. => "array"
  | .table .inline .. => "inline table"
  | .table .. => "table"
  | .tables .. => "array of tables"

def misfit {α : Type} (node : Node) (expected : String) : Fitted α :=
  .error ⟨"invalid type: " ++ node.described ++ ", expected " ++ expected, node.mark?⟩

def Node.toText : Node → Fitted String
  | .string _ s => .ok s
  | node => misfit node "a string"

def Node.toBool : Node → Fitted Bool
  | .boolean _ b => .ok b
  | node => misfit node "a boolean"

/-- Whole numbers are numbers too. -/
def Node.toFloat : Node → Fitted Float
  | .float _ x => .ok x
  | .integer _ n => .ok (Float.ofInt n)
  | node => misfit node "f64"

def Node.toList {α : Type} (item : Node → Fitted α) : Node → Fitted (List α)
  | .array mark items | .tables mark items => placed (some mark) (items.mapM item)
  | node => misfit node "a sequence"

/-- A text and where it stands. -/
structure Marked where
  text : String
  mark : Mark
  deriving DecidableEq, Inhabited

def Node.toMarked : Node → Fitted Marked
  | .table _ none ((key, _) :: _) =>
    .error ⟨"invalid type: string " ++ Text.quoted key.name ++ ", expected a borrowed string",
      some key.mark⟩
  | node => do
    let text ← node.toText
    .ok ⟨text, node.mark?.getD 0⟩

/-- One of some words, or a table with such a word as its only key and an empty table under it. -/
def Node.toWord {α : Type} (words : String) (ofWord? : String → Option α) (node : Node) :
    Fitted α :=
  let read (word : String) (mark : Option Mark) : Fitted α :=
    match ofWord? word with
    | some x => .ok x
    | none => .error ⟨"unknown variant `" ++ word ++ "`, expected " ++ words, mark⟩
  match node with
  | .string mark s => read s (some mark)
  | .table _ mark [] => .error ⟨"wanted exactly 1 element, found 0 elements", mark⟩
  | .table _ _ [(key, inner)] => do
    let x ← read key.name (some key.mark)
    match inner with
    | .table _ _ [] => .ok x
    | .table _ mark _ => .error ⟨"expected empty table", mark⟩
    | inner => .error ⟨"expected table, found " ++ inner.noun, inner.mark?⟩
  | .table _ mark _ => .error ⟨"wanted exactly 1 element, more than 1 element", mark⟩
  | node => .error ⟨"wanted string or table", node.mark?⟩

/-- What a record is read from: fields by name, or values in the order of the fields. -/
inductive Members where
  | named (entries : Entries)
  | listed (values : List Node)

/-- The name of the only field of a date. -/
def dateField : String := "$__toml_private_datetime"

def Node.members? : Node → Option Members
  | .table _ _ entries => some (.named entries)
  | .array _ items | .tables _ items => some (.listed items)
  | .date mark => some (.named [(⟨dateField, mark⟩, .date mark)])
  | _ => none

/-- Reads fields into a record, one after the other. -/
def Members.read {α : Type} (names : List String) (field : α → String → Node → Fitted α)
    (other : α → Key → Fitted α) (start : α) : Members → Fitted α
  | .named entries =>
    entries.foldlM (fun x (entry : Key × Node) =>
      let (key, node) := entry
      if names.contains key.name then
        placed (node.mark?.or (some key.mark)) (field x key.name node)
      else other x key) start
  | .listed values =>
    (names.zip values).foldlM (fun x (named : String × Node) => field x named.1 named.2) start

/-- The count of values that a record is read from, if they are listed. -/
def Members.count? : Members → Option Nat
  | .named _ => none
  | .listed values => some values.length

/-- A record whose first `least` fields must be there when the values are listed. -/
def Node.toRecord {α : Type} (title : String) (names : List String) (least : Nat)
    (field : α → String → Node → Fitted α) (other : α → Key → Fitted α) (start : α)
    (node : Node) : Fitted α :=
  placed node.mark? <|
    match node.members? with
    | none => misfit node ("struct " ++ title)
    | some members => do
      let x ← members.read names field other start
      match members.count? with
      | none => .ok x
      | some n =>
        if n < least then
          .error ⟨"invalid length " ++ toString n ++ ", expected struct " ++ title ++ " with " ++
            toString names.length ++ " elements", node.mark?⟩
        else .ok x

def unknownField {α : Type} (names : List String) (key : Key) : Fitted α :=
  .error ⟨"unknown field `" ++ key.name ++ "`, expected one of " ++
    Text.joinedStrings ", " (names.map fun name => "`" ++ name ++ "`"), some key.mark⟩

/-- A field that must be there. -/
def needed {α : Type} (name : String) : Option α → Fitted α
  | some x => .ok x
  | none => .error ⟨"missing field `" ++ name ++ "`", none⟩

end LiveRules.Toml
