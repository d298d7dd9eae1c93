import LiveRules.Json.Basic
import LiveRules.Decimal.Text

/-!
Writing JSON documents: `pretty` puts each item and member on a line of its own, indented by two
blanks a level, and `compact` writes no white space at all. Only quotes, backslashes and control
characters are escaped.
-/

namespace LiveRules.Json

/-- A number, or null when it is not finite. -/
def float (x : Float) : Json :=
  if x.isFinite then .number (Decimal.stored.write x) else .null

def hexDigit (n : Nat) : Char := Nat.digitChar n

def escaped (c : Char) : List Char :=
  if c = '"' then ['\\', '"']
  else if c = '\\' then ['\\', '\\']
  else if c = '\x08' then ['\\', 'b']
  else if c = '\x0c' then ['\\', 'f']
  else if c = '\n' then ['\\', 'n']
  else if c = '\r' then ['\\', 'r']
  else if c = '\t' then ['\\', 't']
  else if c.val < 32 then ['\\', 'u', '0', '0', hexDigit (c.toNat / 16), hexDigit (c.toNat % 16)]
  else [c]

def quoted (s : String) : List Char := '"' :: s.toList.flatMap escaped ++ ['"']

/-- A text that names no character is written as an unpaired escape. -/
def quotedText : Option String → List Char
  | some s => quoted s
  | none => ['"', '\\', 'u', 'd', '8', '0', '0', '"']

def indent (level : Nat) : List Char := List.replicate (2 * level) ' '

/-- An empty list is closed where it was opened, any other on a new line. -/
def closing {α : Type} (level : Nat) (items : List α) : List Char :=
  if items.isEmpty then [] else '\n' :: indent level

def separator {α : Type} (rest : List α) : List Char := if rest.isEmpty then [] else [',']

mutual

def prettyChars (level : Nat) : Json → List Char
  | .null => ['n', 'u', 'l', 'l']
  | .bool true => ['t', 'r', 'u', 'e']
  | .bool false => ['f', 'a', 'l', 's', 'e']
  | .number literal => literal.toList
  | .text t => quotedText t
  | .array items => '[' :: prettyItems level items ++ (closing level items ++ [']'])
  | .object members => '\x7b' :: prettyMembers level members ++ (closing level members ++ ['\x7d'])

/-- Items one level further in, each on its own line. -/
def prettyItems (level : Nat) : List Json → List Char
  | [] => []
  | item :: rest =>
    '\n' :: indent (level + 1) ++ prettyChars (level + 1) item ++ separator rest ++
      prettyItems level rest

def prettyMembers (level : Nat) : List (Option String × Json) → List Char
  | [] => []
  | (key, value) :: rest =>
    '\n' :: indent (level + 1) ++ quotedText key ++ ':' :: ' ' :: prettyChars (level + 1) value ++
      separator rest ++ prettyMembers level rest

end

def pretty (json : Json) : String := .ofList (prettyChars 0 json)

mutual

def compactChars : Json → List Char
  | .null => ['n', 'u', 'l', 'l']
  | .bool true => ['t', 'r', 'u', 'e']
  | .bool false => ['f', 'a', 'l', 's', 'e']
  | .number literal => literal.toList
  | .text t => quotedText t
  | .array items => '[' :: compactItems items ++ [']']
  | .object members => '\x7b' :: compactMembers members ++ ['\x7d']

def compactItems : List Json → List Char
  | [] => []
  | item :: rest => compactChars item ++ separator rest ++ compactItems rest

def compactMembers : List (Option String × Json) → List Char
  | [] => []
  | (key, value) :: rest =>
    quotedText key ++ ':' :: compactChars value ++ separator rest ++ compactMembers rest

end

def compact (json : Json) : String := .ofList (compactChars json)

end LiveRules.Json
