import LiveRules.Console
import LiveRules.Text.Cut

/-!
Showing output on a terminal. A status replaces the status before it, as long as no note has been
shown in between: the screen keeps the number of lines that a status may still take back.
-/

namespace LiveRules

structure Screen where
  /-- The lines of the last status; none once a note follows it. -/
  block : Nat := 0
  deriving DecidableEq, Inhabited

namespace Screen

/-- A control sequence of the terminal. -/
def control (body : String) : String := "\x1b[" ++ body

def bold (s : String) : String := control "1m" ++ s ++ control "0m"
def dimmed (s : String) : String := control "2m" ++ s ++ control "0m"
def coloured (number : Nat) (s : String) : String :=
  control (toString number ++ "m") ++ s ++ control "39m"

/-- The bright colour of a part of the program, whatever the case of its letters. -/
def accent (origin : String) : Nat :=
  match origin.toLower with
  | "reload" => 94
  | "watch" => 92
  | "error" => 91
  | "load" => 96
  | _ => 93

/-- A note takes the rest of the line that the cursor is on. -/
def noteText (n : Note) : String :=
  control "K" ++ bold (coloured (accent n.origin) ("[" ++ n.origin ++ "]")) ++ " " ++ n.text ++ "\n"

def symbol (isGood : Bool) : String := if isGood then coloured 32 "✓" else coloured 31 "✗"

/-- Terminals count lines in sixteen bits. -/
def lineLimit : Nat := 65536

/-- Goes up over some lines and clears them. -/
def takeBack (lines : Nat) : String :=
  if lines = 0 then "" else control (toString (lines % lineLimit) ++ "A") ++ control "J"

def lineCount (s : String) : Nat := (Text.split '\n' s.toList).length

def twoDigits (n : Nat) : String := if n < 10 then "0" ++ toString n else toString n

/-- The time of day some seconds after a midnight. -/
def timeOfDay (seconds : Nat) : String :=
  twoDigits (seconds / 3600 % 24) ++ ":" ++ twoDigits (seconds / 60 % 60) ++ ":" ++
    twoDigits (seconds % 60)

/-- Shows one output at a time of day, and the screen after it. -/
def draw (time : String) (isVerbose : Bool) (s : Screen) (x : Output) : String × Screen :=
  if !x.isShown isVerbose then ("", s)
  else
    match x with
    | .note n => (noteText n, ⟨0⟩)
    | .status isGood text =>
      let stamp := dimmed ("[" ++ time ++ "]")
      (takeBack s.block ++ stamp ++ " " ++ symbol isGood ++ " " ++ text ++ "\n", ⟨lineCount text⟩)
    | .line text => (text ++ "\n", s)

/-- Shows outputs one after the other. -/
def drawAll (time : String) (isVerbose : Bool) (s : Screen) : List Output → String × Screen
  | [] => ("", s)
  | x :: rest =>
    let (first, s) := s.draw time isVerbose x
    let (others, s) := drawAll time isVerbose s rest
    (first ++ others, s)

end Screen

end LiveRules
