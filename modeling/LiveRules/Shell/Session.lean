import LiveRules.Files.Disk
import LiveRules.Shell.Word

/-!
Sessions of the shell: the disk, what was written to the two outputs, and the values that the
parameters of words have.
-/

namespace LiveRules.Shell

open Text (Bytes)

inductive Status where
  | code (n : Nat)
  | signal (n : Nat)
  deriving DecidableEq, Inhabited

def signalNames : List (Nat × String) :=
  [(1, "SIGHUP"), (2, "SIGINT"), (3, "SIGQUIT"), (4, "SIGILL"), (5, "SIGTRAP"), (6, "SIGABRT"),
    (7, "SIGBUS"), (8, "SIGFPE"), (9, "SIGKILL"), (10, "SIGUSR1"), (11, "SIGSEGV"),
    (12, "SIGUSR2"), (13, "SIGPIPE"), (14, "SIGALRM"), (15, "SIGTERM")]

def Status.succeeded (s : Status) : Bool := s == .code 0

def Status.text : Status → String
  | .code n => "exit status: " ++ toString n
  | .signal n => "signal: " ++ toString n ++ " (" ++ (signalNames.lookup n).getD "" ++ ")"

/-- Where output goes. -/
inductive Sink where
  | standard
  | errors
  | file (path : Path)
  deriving DecidableEq, Inhabited

structure Session where
  disk : Disk
  out : Bytes := ByteArray.empty
  err : Bytes := ByteArray.empty
  name : String
  args : List String
  vars : List (String × String)
  last : Nat := 0
  ended : Option Status := none
  deriving Inhabited

structure Finished where
  status : Status
  out : Bytes
  err : Bytes
  disk : Disk
  deriving Inhabited

namespace Session

def write (s : Session) (sink : Sink) (content : Bytes) : Session :=
  match sink with
  | .standard => { s with out := s.out ++ content }
  | .errors => { s with err := s.err ++ content }
  | .file path =>
    match s.disk.read path with
    | .ok old => { s with disk := (s.disk.write path (old ++ content)).2 }
    | .error _ => s

def value (s : Session) (name : String) : String :=
  if name = "#" then toString s.args.length
  else if name = "?" then toString s.last
  else if name = "$" then "$"
  else if name = "@" ∨ name = "*" then " ".intercalate s.args
  else if name = "0" then s.name
  else
    match name.toNat? with
    | some n => s.args.getD (n - 1) ""
    | none => (s.vars.lookup name).getD ""

def isFieldBreak (c : Char) : Bool := c == ' ' || c == '\t' || c == '\n'

/-- The fields that unquoted text is cut into, and whether it ends with a break. -/
def cut (cs : List Char) : List (List Char) :=
  match cs with
  | [] => [[]]
  | c :: cs =>
    if isFieldBreak c then [] :: cut cs
    else
      match cut cs with
      | [] => [[c]]
      | field :: rest => (c :: field) :: rest

/-- Adds the fields of a piece to those of the pieces before; the flag says whether the last field
counts although it is empty. -/
def join (fields : List (List Char × Bool)) (more : List (List Char × Bool)) :
    List (List Char × Bool) :=
  match fields.getLast?, more with
  | _, [] => fields
  | none, more => more
  | some last, first :: rest =>
    fields.dropLast ++ [(last.1 ++ first.1, last.2 || first.2)] ++ rest

def pieceFields (s : Session) : Piece → List (List Char × Bool)
  | .text chars isQuoted => [(chars, isQuoted)]
  | .parameter name true =>
    if name = "@" then s.args.map fun a => (a.toList, true)
    else [((s.value name).toList, true)]
  | .parameter name false =>
    if name = "@" ∨ name = "*" then s.args.map fun a => (a.toList, false)
    else (cut (s.value name).toList).map fun f => (f, false)

/-- The arguments that a word stands for. -/
def expand (s : Session) (w : Word) : List String :=
  let fields := w.foldl (fun fields piece => join fields (s.pieceFields piece)) []
  (fields.filter fun f => f.2 || !f.1.isEmpty).map fun f => String.ofList f.1

def expandAll (s : Session) (ws : List Word) : List String := ws.flatMap s.expand

/-- The text that a word stands for where it is one word. -/
def expandOne (s : Session) (w : Word) : String := " ".intercalate (s.expand w)

end Session

end LiveRules.Shell
