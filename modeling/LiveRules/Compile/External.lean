import LiveRules.ClassPath
import LiveRules.Compile.Messages
import LiveRules.Shell.Run
import LiveRules.Source

/-!
An external compiler. It is called with its configured arguments, the class path, the folder to
write to and the paths of the sources, and tells by its exit status whether it succeeded.
-/

namespace LiveRules

structure ExternalTool where
  program : Path
  args : List String
  /-- The name that it was asked for by. -/
  name : String
  deriving DecidableEq, Inhabited

namespace ExternalTool

/-- Adds an argument to a call; empty ones are left out. -/
def addArg (args : List String) (arg : String) : List String :=
  if arg.isEmpty then args else args ++ [arg]

def addArgs (args more : List String) : List String := more.foldl addArg args

/-- The arguments of one compilation. -/
def call (configured : List String) (classPath root : String) (sources : List String) :
    List String :=
  addArgs (addArg (addArg (addArg (addArg (addArgs [] configured) "--classpath") classPath)
    "--out") root) sources

/-- What the exit status and the outputs of the compiler come to. -/
def outcomeOf (tool : ExternalTool) (sources : List Source) (root : Path)
    (x : Shell.Finished) : Outcome :=
  if x.status.succeeded then
    { sources := sources.length
      written := (sources.map fun s => Naming.artifactPath root s.identifier).filter x.disk.isFile }
  else
    let err := Text.decodeLossy x.err
    let out := Text.decodeLossy x.out
    let found := Messages.diagnostics err ++ Messages.diagnostics out
    let silent : Diagnostic :=
      ⟨tool.program, 0, x.status.text ++ " (" ++ Messages.lastLine [err, out] ++ ")"⟩
    { sources := sources.length
      diagnostics := if found.isEmpty then [silent] else found }

end ExternalTool

end LiveRules
