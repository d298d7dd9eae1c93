import LiveRules.Toml.Basic

/-!
What stands between the words of a document: blanks, line ends and comments.
-/

namespace LiveRules.Toml

/-- What a reader gives: a value and the text after it, or the text at which it stops. -/
abbrev Reading (α : Type) := Except (List Char) (α × List Char)

def isSpace (c : Char) : Bool := c == ' ' || c == '\t'

def skipSpace (cs : List Char) : List Char := cs.dropWhile isSpace

/-- Characters that texts and comments may hold: no control characters but the tab. -/
def isVisible (c : Char) : Bool := c == '\t' || (0x20 ≤ c.val && c.val ≠ 0x7F)

/-- The text after a line end. -/
def afterNewline? : List Char → Option (List Char)
  | '\n' :: cs => some cs
  | '\r' :: '\n' :: cs => some cs
  | _ => none

def skipComment (cs : List Char) : List Char := cs.dropWhile isVisible

/-- Blanks, a comment if there is one, and the end of the line or of the text. -/
def lineEnd (cs : List Char) : Except (List Char) (List Char) :=
  let rest :=
    match skipSpace cs with
    | '#' :: cs => skipComment cs
    | cs => cs
  match afterNewline? rest with
  | some rest => .ok rest
  | none => if rest.isEmpty then .ok [] else .error rest

/-- What may stand between the items of an array: a comment there needs a line end after it. -/
def skipLines : Nat → List Char → Except (List Char) (List Char)
  | 0, cs => .ok cs
  | fuel + 1, cs =>
    match skipSpace cs with
    | '#' :: cs =>
      let rest := skipComment cs
      match afterNewline? rest with
      | some rest => skipLines fuel rest
      | none => .error rest
    | cs =>
      match afterNewline? cs with
      | some rest => skipLines fuel rest
      | none => if cs.head? = some '\r' then .error cs else .ok cs

def betweenItems (cs : List Char) : Except (List Char) (List Char) := skipLines (cs.length + 1) cs

end LiveRules.Toml
