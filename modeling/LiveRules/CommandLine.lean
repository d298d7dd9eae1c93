import LiveRules.Artifact
import LiveRules.Files.Path

/-!
Command lines. Options may stand before the command or, the global ones, after it. An option that
takes a value waits for it: the value is checked only when the next option or the end of its part
of the line is reached. The part after a command is read to its end before the part in front of
the command is checked.
-/

namespace LiveRules.CommandLine

inductive Colour where
  | auto
  | always
  | never
  deriving DecidableEq

inductive Command where
  | watch
  | compile
  | list
  | fire (item state : String) (previous : Option String) (kind : Trigger)
  deriving DecidableEq

structure Settings where
  colour : Colour := .auto
  config : Path
  workingDir : Option Path := none
  verbose : Bool := false
  command : Command
  deriving DecidableEq

inductive UsageError where
  | help
  | helpForMissing
  | version
  | unknownArgument
  | unknownCommand
  | missingCommand
  | missingArgument
  | badValue
  | tooManyValues
  | conflict
  deriving DecidableEq

namespace UsageError

def message : UsageError → String
  | .help | .helpForMissing =>
    "usage: [OPTIONS] watch | compile | list | fire ITEM STATE [-p PREVIOUS] [-k KIND]"
  | .version => "0.1.0"
  | .unknownArgument => "error: unexpected argument"
  | .unknownCommand => "error: unrecognized command"
  | .missingCommand => "error: a command is required"
  | .missingArgument => "error: a required argument is missing"
  | .badValue => "error: invalid value"
  | .tooManyValues => "error: unexpected value"
  | .conflict => "error: an argument is given twice"

/-- Whether the user asked for what is shown. -/
def isRequest : UsageError → Bool
  | .help | .version => true
  | _ => false

end UsageError

inductive Switch where
  | colour
  | config
  | workingDir
  | verbose
  | help
  | version
  | previous
  | kind
  deriving DecidableEq

def Switch.takesValue : Switch → Bool
  | .verbose | .help | .version => false
  | _ => true

/-- The part of a line in front of the command, or the part after it. -/
inductive Part where
  | front
  | plain (command : Command)
  | fire

def Part.positionals : Part → Nat
  | .fire => 2
  | _ => 0

def Part.long? (part : Part) (name : String) : Option Switch :=
  match part, name with
  | _, "color" => some .colour
  | _, "verbose" => some .verbose
  | _, "help" => some .help
  | .front, "config" => some .config
  | .front, "working-dir" => some .workingDir
  | .front, "version" => some .version
  | .fire, "previous" => some .previous
  | .fire, "kind" => some .kind
  | _, _ => none

def Part.short? (part : Part) (c : Char) : Option Switch :=
  match part, c with
  | _, 'v' => some .verbose
  | _, 'h' => some .help
  | .front, 'C' => some .config
  | .front, 'w' => some .workingDir
  | .front, 'V' => some .version
  | .fire, 'p' => some .previous
  | .fire, 'k' => some .kind
  | _, _ => none

/-- The part that a command opens; `none` for a name that is no command. -/
def command? (name : String) : Option Part :=
  match name with
  | "watch" | "w" => some (.plain .watch)
  | "compile" | "c" => some (.plain .compile)
  | "list" | "l" => some (.plain .list)
  | "fire" | "f" => some .fire
  | _ => none

def colour? (s : String) : Option Colour :=
  match s with
  | "auto" => some .auto
  | "always" => some .always
  | "never" => some .never
  | _ => none

def kind? (s : String) : Option Trigger :=
  match s with
  | "changed" => some .changed
  | "update" => some .receivedUpdate
  | "command" => some .receivedCommand
  | _ => none

/-- Whether a switch can have a value. -/
def Switch.accepts : Switch → String → Bool
  | .colour, s => (colour? s).isSome
  | .kind, s => (kind? s).isSome
  | .config, s | .workingDir, s => !s.isEmpty
  | _, _ => true

/-- What is read of a part so far. -/
structure Found where
  switches : List (Switch × String) := []
  positionals : List String := []
  /-- A switch that waits for its value, which may have been read but not checked. -/
  waiting : Option (Switch × Option String) := none
  /-- Whether `--` was read. -/
  onlyPositionals : Bool := false

namespace Found

def value? (x : Found) (s : Switch) : Option String := x.switches.lookup s

/-- Enters a switch with a value. -/
def enter (x : Found) (s : Switch) (value : String) : Except UsageError Found :=
  if (x.value? s).isSome then .error .conflict
  else if s.accepts value then .ok { x with switches := (s, value) :: x.switches }
  else .error .badValue

/-- Checks the switch that waits. -/
def settle (x : Found) : Except UsageError Found :=
  match x.waiting with
  | none => .ok x
  | some (_, none) => .error .badValue
  | some (s, some value) => { x with waiting := none }.enter s value

/-- Takes a switch that has no value. -/
def raise (x : Found) (s : Switch) : Except UsageError Found := do
  let x ← x.settle
  match s with
  | .help => .error .help
  | .version => .error .version
  | s => x.enter s "true"

/-- Takes a switch that has a value, with the value if it is attached. -/
def open_ (x : Found) (s : Switch) (attached : Option String) : Except UsageError Found := do
  let x ← x.settle
  match attached with
  | some value => x.enter s value
  | none => .ok { x with waiting := some (s, none) }

/-- Whether the next word is a value, whatever it looks like. -/
def wantsValue (x : Found) : Bool :=
  match x.waiting with
  | some (_, none) => true
  | _ => false

/-- Gives the value that a switch waits for. -/
def supply (x : Found) (value : String) : Found :=
  { x with waiting := x.waiting.map fun w => (w.1, some value) }

end Found

/-- A long switch, without its dashes. -/
def long (part : Part) (x : Found) (word : List Char) : Except UsageError Found :=
  let name := word.takeWhile (· ≠ '=')
  let attached : Option String :=
    match word.dropWhile (· ≠ '=') with
    | _ :: value => some (.ofList value)
    | [] => none
  match part.long? (.ofList name) with
  | none => .error .unknownArgument
  | some s =>
    if s.takesValue then x.open_ s attached
    else if attached.isSome then .error .tooManyValues
    else x.raise s

/-- Short switches, without their dash. What follows one that takes a value is the value. -/
def short (part : Part) : Found → List Char → Except UsageError Found
  | x, [] => .ok x
  | x, c :: rest =>
    match part.short? c with
    | none => .error .unknownArgument
    | some s =>
      if s.takesValue then
        match rest with
        | [] => x.open_ s none
        | '=' :: value => x.open_ s (some (.ofList value))
        | value => x.open_ s (some (.ofList value))
      else do
        let x ← x.raise s
        short part x rest

/-- A word that is no switch and no value. -/
def positional (part : Part) (x : Found) (word : String) : Except UsageError Found :=
  if x.positionals.length < part.positionals then do
    let x ← x.settle
    .ok { x with positionals := x.positionals ++ [word] }
  else
    match part with
    | .front =>
      if x.onlyPositionals && ((command? word).isSome || word == "help") then
        .error .unknownArgument
      else .error .unknownCommand
    | _ => .error .unknownArgument

/-- A word of a part. -/
def step (part : Part) (x : Found) (word : String) : Except UsageError Found :=
  if x.onlyPositionals then positional part x word
  else
    match word.toList with
    | ['-', '-'] => .ok { x with onlyPositionals := true }
    | '-' :: '-' :: rest => long part x rest
    | '-' :: c :: rest => short part x (c :: rest)
    | _ => if x.wantsValue then .ok (x.supply word) else positional part x word

/-- Reads the part after a command. -/
def readPart (part : Part) : Found → List String → Except UsageError Found
  | x, [] => x.settle
  | x, word :: rest => do
    let x ← step part x word
    readPart part x rest

/-- What `help` says about the words after it. -/
def helpOn : List String → UsageError
  | [] => .help
  | word :: rest =>
    if ((command? word).isSome || word == "help") && rest.isEmpty then .help else .unknownCommand

def commandOf (part : Part) (x : Found) : Except UsageError Command :=
  match part with
  | .plain command => .ok command
  | .fire =>
    match x.positionals with
    | [item, state] => .ok (.fire item state (x.value? .previous)
        (((x.value? .kind).bind kind?).getD .changed))
    | _ => .error .missingArgument
  | .front => .error .missingCommand

/-- The name of the configuration file when none is given. -/
def defaultConfig : String := "hotrules.toml"

/-- The settings that the two parts of a line give; the later part goes first. -/
def settings (front after : Found) (command : Command) : Settings :=
  let colour := (after.value? .colour).or (front.value? .colour)
  { colour := (colour.bind colour?).getD .auto
    config := ⟨(front.value? .config).getD defaultConfig⟩
    workingDir := (front.value? .workingDir).map Path.mk
    verbose := (after.value? .verbose).isSome || (front.value? .verbose).isSome
    command }

/-- Reads a line, the part in front of the command being read up to here. -/
def read (x : Found) : List String → Except UsageError Settings
  | [] => do
    let x ← x.settle
    if x.switches.isEmpty then .error .helpForMissing else .error .missingCommand
  | word :: rest =>
    let opened := if x.onlyPositionals || x.wantsValue then none else command? word
    match opened with
    | some part => do
      let after ← readPart part {} rest
      let command ← commandOf part after
      let front ← x.settle
      .ok (settings front after command)
    | none =>
      if word = "help" && !x.onlyPositionals && !x.wantsValue then .error (helpOn rest)
      else do
        let x ← step .front x word
        read x rest

/-- The settings that the words after the program's name give. -/
def parse (words : List String) : Except UsageError Settings := read {} words

end LiveRules.CommandLine
