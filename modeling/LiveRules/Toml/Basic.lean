/-!
Documents of tables and values. A document is a table whose entries keep the order in which they
are written; keys and values remember where they stand in the text, so that later checks can name
the line.
-/

namespace LiveRules.Toml

/-- A place in a text: how many characters stand from there on. -/
abbrev Mark := Nat

/-- The line of a place, counted from one. -/
def lineAt (text : List Char) (mark : Mark) : Nat :=
  (text.take (text.length - mark)).count '\n' + 1

structure Key where
  name : String
  mark : Mark
  deriving DecidableEq, Inhabited

/-- How a table comes about. -/
inductive Form where
  /-- Under a header of its own, or the document itself. -/
  | header
  /-- Named on the way to another header. -/
  | implied
  /-- Named on the way by a dotted key. -/
  | dotted
  /-- Between braces. -/
  | inline
  deriving DecidableEq, Inhabited

inductive Node where
  | string (mark : Mark) (s : String)
  | integer (mark : Mark) (n : Int)
  | float (mark : Mark) (x : Float)
  | boolean (mark : Mark) (b : Bool)
  | date (mark : Mark)
  | array (mark : Mark) (items : List Node)
  | table (form : Form) (mark : Option Mark) (entries : List (Key × Node))
  /-- The tables under repeated headers. -/
  | tables (mark : Mark) (items : List Node)
  deriving Inhabited

abbrev Entries := List (Key × Node)

/-- Where a value stands; a table that is only named on the way to others stands nowhere. -/
def Node.mark? : Node → Option Mark
  | .string mark _ | .integer mark _ | .float mark _ | .boolean mark _ | .date mark
  | .array mark _ | .tables mark _ => some mark
  | .table _ mark _ => mark

def get? (name : String) : Entries → Option Node
  | [] => none
  | (key, node) :: rest => if key.name = name then some node else get? name rest

/-- Exchanges the value of a key, which keeps its place. -/
def replace (name : String) (node : Node) : Entries → Entries
  | [] => []
  | (key, old) :: rest =>
    if key.name = name then (key, node) :: rest else (key, old) :: replace name node rest

def erase (name : String) (entries : Entries) : Entries :=
  entries.filter fun entry => entry.1.name ≠ name

end LiveRules.Toml
