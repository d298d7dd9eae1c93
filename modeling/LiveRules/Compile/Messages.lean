import LiveRules.Compile.Outcome
import LiveRules.Decimal.Reading
import LiveRules.Text.Blank
import LiveRules.Text.Colour
import LiveRules.Text.Cut
import LiveRules.Text.Digit

/-!
Reading diagnostics out of a compiler's output. A line is a diagnostic when it has the form
`file:line: message` or `file:line:column: message`; `error:` may stand before the message. Colours
are removed first, and so are blanks at both ends. All other lines are left out.
-/

namespace LiveRules.Messages

open Text

def errorWord : List Char := ['e', 'r', 'r', 'o', 'r', ':']

/-- A message without the word in front of it; a word alone is a message. -/
def message? (cs : List Char) : Option (List Char) :=
  let cs := trimLeft cs
  let rest := trimLeft (cs.drop errorWord.length)
  if errorWord.isPrefixOf cs && !rest.isEmpty then some rest
  else if cs.isEmpty then none
  else some cs

/-- The digits at the start of a text and what follows the colon after them. -/
def takeNumber? (cs : List Char) : Option (List Char × List Char) :=
  match cs.takeWhile isDecimalDigit, cs.dropWhile isDecimalDigit with
  | d :: ds, ':' :: rest => some (d :: ds, rest)
  | _, _ => none

/-- The message after the line number, with or without a column before it. -/
def afterLine? (cs : List Char) : Option (List Char) :=
  match takeNumber? cs with
  | some (_, rest) => (message? rest).or (message? cs)
  | none => message? cs

/-- The greatest line number that is told apart, plus one. -/
def lineLimit : Nat := Nat.pow 2 64

/-- A line number; digits of other scripts and numbers that are too large count as zero. -/
def lineNumber (ds : List Char) : Nat :=
  if ds.all Decimal.isDigit ∧ Decimal.valueOf ds < lineLimit then Decimal.valueOf ds else 0

def ofLine? (line : List Char) : Option Diagnostic :=
  let cs := trimChars (stripFrom 0 line)
  match cs.takeWhile (· ≠ ':'), cs.dropWhile (· ≠ ':') with
  | f :: file, _ :: rest =>
    match takeNumber? rest with
    | none => none
    | some (ds, rest) =>
      (afterLine? rest).map fun message =>
        ⟨⟨.ofList (trimChars (f :: file))⟩, lineNumber ds, .ofList (trimChars message)⟩
  | _, _ => none

/-- The diagnostics in an output. -/
def diagnostics (output : String) : List Diagnostic := (lines output.toList).filterMap ofLine?

/-- The last line that says anything. -/
def lastLine (outputs : List String) : String :=
  let said := (outputs.flatMap fun s => (lines s.toList).map trimChars).filter fun l => !l.isEmpty
  (said.getLast?.map String.ofList).getD "no output"

end LiveRules.Messages
