/-!
Colour sequences of a terminal: ESC, `[`, digits and semicolons, `m`. `strip` removes them in one
scan from left to right, as a compiler's output is cleaned before it is read.
-/

namespace LiveRules.Text

def escape : Char := '\x1b'

def isColourDigit (c : Char) : Bool := ('0' ≤ c && c ≤ '9') || c == ';'

/-- The length of the colour sequence at the start of a text. -/
def colourLength? : List Char → Option Nat
  | e :: '[' :: rest =>
    if e = escape then
      match rest.dropWhile isColourDigit with
      | 'm' :: _ => some ((rest.takeWhile isColourDigit).length + 3)
      | _ => none
    else none
  | _ => none

def stripFrom : Nat → List Char → List Char
  | _, [] => []
  | skip + 1, _ :: rest => stripFrom skip rest
  | 0, c :: rest =>
    match colourLength? (c :: rest) with
    | some n => stripFrom (n - 1) rest
    | none => c :: stripFrom 0 rest

def stripColours (s : String) : String := .ofList (stripFrom 0 s.toList)

end LiveRules.Text
