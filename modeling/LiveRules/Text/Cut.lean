/-!
Cutting texts into pieces and putting pieces together.

`split` cuts at every separator and keeps empty pieces, `joined` undoes it, `lines` cuts at line
ends, and `replaceAll` replaces each occurrence of a word in one scan from left to right.
-/

namespace LiveRules.Text

/-- The pieces between the separators; there is always at least one. -/
def split (sep : Char) : List Char → List (List Char)
  | [] => [[]]
  | c :: cs =>
    if c = sep then [] :: split sep cs
    else
      match split sep cs with
      | [] => [[c]]
      | piece :: rest => (c :: piece) :: rest

def joined (sep : List Char) : List (List Char) → List Char
  | [] => []
  | [piece] => piece
  | piece :: rest => piece ++ sep ++ joined sep rest

/-- The texts of a list, one after the other with a text between them. -/
def joinedStrings (sep : String) (pieces : List String) : String :=
  .ofList (joined sep.toList (pieces.map String.toList))

/-- What stands before and after the last separator. -/
def splitLast? (sep : Char) : List Char → Option (List Char × List Char)
  | [] => none
  | c :: cs =>
    match splitLast? sep cs with
    | some (before, after) => some (c :: before, after)
    | none => if c = sep then some ([], cs) else none

def withoutReturn (line : List Char) : List Char :=
  if line.getLast? = some '\r' then line.dropLast else line

/-- The lines among the pieces between line feeds. The last piece is a line only when it holds
something, and it alone keeps a carriage return at its end. -/
def linesOf : List (List Char) → List (List Char)
  | [] => []
  | [last] => if last.isEmpty then [] else [last]
  | line :: rest => withoutReturn line :: linesOf rest

def lines (cs : List Char) : List (List Char) := linesOf (split '\n' cs)

/-- The text from the first occurrence of a word on. -/
def fromFirst? (word : List Char) : List Char → Option (List Char)
  | [] => if word.isEmpty then some [] else none
  | c :: cs => if word.isPrefixOf (c :: cs) then some (c :: cs) else fromFirst? word cs

/-- Replaces a word in one scan; `skip` characters of the last occurrence are still to be left
out. -/
def replaceFrom (word value : List Char) : Nat → List Char → List Char
  | _, [] => []
  | skip + 1, _ :: cs => replaceFrom word value skip cs
  | 0, c :: cs =>
    if word.isPrefixOf (c :: cs) then value ++ replaceFrom word value (word.length - 1) cs
    else c :: replaceFrom word value 0 cs

/-- Each occurrence of a non-empty word replaced, found from left to right and not overlapping. -/
def replaceAll (word value s : String) : String :=
  .ofList (replaceFrom word.toList value.toList 0 s.toList)

theorem split_ne_nil (sep : Char) (cs : List Char) : split sep cs ≠ [] := by
  cases cs with
  | nil => simp [split]
  | cons c cs =>
    simp only [split]
    split
    · simp
    · split <;> simp

theorem joined_split (sep : Char) (cs : List Char) : joined [sep] (split sep cs) = cs := by
  induction cs with
  | nil => rfl
  | cons c cs ih =>
    have hne := split_ne_nil sep cs
    unfold split
    cases hs : split sep cs with
    | nil => exact absurd hs hne
    | cons piece rest =>
      rw [hs] at ih
      by_cases hc : c = sep
      · simp [hc, joined, ih]
      · cases rest with
        | nil => simpa [hc, joined] using ih
        | cons q rest => simpa [hc, joined] using ih

end LiveRules.Text
