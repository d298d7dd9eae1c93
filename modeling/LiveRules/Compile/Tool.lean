import LiveRules.Compile.Builtin
import LiveRules.Compile.External

/-!
Compilers: the built-in one, or an external one that a command names.
-/

namespace LiveRules

inductive Tool where
  | builtin
  | external (tool : ExternalTool)
  deriving DecidableEq, Inhabited

/-- What a compilation leaves behind. -/
structure Compiled where
  outcome : Except CompileError Outcome
  disk : Disk
  notes : List Note := []

namespace Tool

def name : Tool → String
  | .builtin => "native"
  | .external tool => tool.name

/-- The external compiler of a command. -/
def external? (d : Disk) (command : List String) : Except CompileError ExternalTool :=
  match command with
  | [] => .error .emptyCommand
  | program :: args =>
    match Shell.which? d program with
    | some path => .ok ⟨path, args, program⟩
    | none => .error (.toolNotFound program)

/-- The compiler of a command; an empty one means the built-in compiler. -/
def ofCommand (d : Disk) (command : List String) : Except CompileError Tool :=
  match command with
  | [] => .ok .builtin
  | command => (external? d command).map .external

def runExternal (tool : ExternalTool) (d : Disk) (sources : List Source) (cp : ClassPath)
    (root : Path) : Compiled :=
  match d.makeFolders root with
  | (.error e, d) => ⟨.error (.output root e), d, []⟩
  | (.ok _, d) =>
    let notes := [quietNote "compile"
      ("running " ++ tool.name ++ " on " ++ toString sources.length ++ " sources")]
    let args := ExternalTool.call tool.args cp.text root.text (sources.map fun s => s.path.text)
    match Shell.run d tool.program args with
    | .error e => ⟨.error (.spawn tool.program e), d, notes⟩
    | .ok x => ⟨.ok (tool.outcomeOf sources root x), x.disk, notes⟩

/-- Compiles sources against a class path into a folder. -/
def run (tool : Tool) (d : Disk) (sources : List Source) (cp : ClassPath) (root : Path) :
    Compiled :=
  match tool with
  | .builtin =>
    let x := Builtin.compile d sources cp root
    ⟨x.outcome, x.disk, x.notes⟩
  | .external tool => runExternal tool d sources cp root

end Tool

end LiveRules
