import LiveRules.Artifact.Json
import LiveRules.Files.Find
import LiveRules.Naming

/-!
Compiled units on a disk: one file per unit, at the path that its identifier spells.
-/

namespace LiveRules

inductive ArtifactError where
  | io (path : Path) (cause : OsError)
  | malformed (path : Path)
  deriving DecidableEq, Inhabited

def ArtifactError.message : ArtifactError → String
  | .io path _ => "IO error on artifact `" ++ path.text ++ "`"
  | .malformed path => "malformed artifact `" ++ path.text ++ "`"

/-- The message with its cause. -/
def ArtifactError.fullText : ArtifactError → String
  | .io path cause => (ArtifactError.io path cause).message ++ ": " ++ cause.message
  | .malformed path => (ArtifactError.malformed path).message

namespace Artifact

def ofText? (s : String) : Option Artifact := (Json.parse? s).bind ofJson?

def text (a : Artifact) : String := a.toJson.pretty

def read (d : Disk) (p : Path) : Except ArtifactError Artifact :=
  match d.readText p with
  | .error e => .error (.io p e)
  | .ok s =>
    match ofText? s with
    | some a => .ok a
    | none => .error (.malformed p)

/-- Stores a unit below a root and gives its path. -/
@[irreducible]
def write (a : Artifact) (d : Disk) (root : Path) : Except ArtifactError Path × Disk :=
  let path := Naming.artifactPath root a.identifier
  match d.makeFolders (path.parent?.getD ⟨""⟩) with
  | (.error e, d) => (.error (.io path e), d)
  | (.ok _, d) =>
    match d.write path (Text.encode a.text) with
    | (.error e, d) => (.error (.io path e), d)
    | (.ok _, d) => (.ok path, d)

end Artifact

end LiveRules
