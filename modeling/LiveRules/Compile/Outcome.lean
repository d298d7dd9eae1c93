import LiveRules.Artifact.Store

/-!
What a compilation gives: diagnostics about the sources, or the paths of the artifacts that were
written. A compilation that cannot go on at all gives an error instead.
-/

namespace LiveRules

structure Diagnostic where
  path : Path
  line : Nat
  message : String
  deriving DecidableEq

def Diagnostic.text (x : Diagnostic) : String :=
  "error on line " ++ toString x.line ++ " in " ++ x.path.text ++ ": " ++ x.message

/-- The order of paths, and of lines within a path. -/
def Diagnostic.le (x y : Diagnostic) : Bool :=
  if x.path.same y.path then x.line ≤ y.line else x.path.le y.path

structure Outcome where
  sources : Nat := 0
  diagnostics : List Diagnostic := []
  written : List Path := []
  deriving DecidableEq

def Outcome.succeeded (o : Outcome) : Bool := o.diagnostics.isEmpty

inductive CompileError where
  | toolNotFound (program : String)
  | emptyCommand
  | spawn (program : Path) (cause : OsError)
  | artifact (cause : ArtifactError)
  | output (path : Path) (cause : OsError)
  deriving DecidableEq

def CompileError.message : CompileError → String
  | .toolNotFound program => "toolchain `" ++ program ++ "` not found in PATH"
  | .emptyCommand => "toolchain command is empty"
  | .spawn .. => "failed to run toolchain"
  | .artifact cause => cause.message
  | .output path _ => "cannot prepare output directory `" ++ path.text ++ "`"

/-- The message with its causes. -/
def CompileError.fullText (e : CompileError) : String :=
  match e with
  | .toolNotFound _ => e.message ++ ": cannot find binary path"
  | .emptyCommand => e.message
  | .spawn program cause =>
    e.message ++ ": Failed to execute `" ++ program.text ++ "`: " ++ cause.message
  | .artifact cause => cause.fullText
  | .output _ cause => e.message ++ ": " ++ cause.message

end LiveRules
