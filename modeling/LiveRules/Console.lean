/-!
What goes to the console: notes, which say what goes on and which part of the program says it,
statuses, which say how the last reload went, and plain lines. A quiet note is shown only by a
program that is asked to tell more.
-/

namespace LiveRules

structure Note where
  origin : String
  text : String
  isQuiet : Bool := false
  deriving DecidableEq, Inhabited

def note (origin text : String) : Note := ⟨origin, text, false⟩

def quietNote (origin text : String) : Note := ⟨origin, text, true⟩

inductive Output where
  | note (n : Note)
  | status (isGood : Bool) (text : String)
  | line (text : String)
  deriving DecidableEq, Inhabited

namespace Output

def ofNotes (notes : List Note) : List Output := notes.map .note

def success (text : String) : Output := .status true text

/-- A failure in one line, with details below if there are any. -/
def failure (summary detail : String) : Output :=
  .status false (if detail.isEmpty then summary else summary ++ "\n" ++ detail)

def isShown (isVerbose : Bool) : Output → Bool
  | .note n => isVerbose || !n.isQuiet
  | _ => true

end Output

end LiveRules
