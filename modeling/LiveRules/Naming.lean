import LiveRules.Files.Path

/-!
Dotted names. A unit is identified by a namespace and a simple name, joined by a point, and its
artifact lies at the path that the namespace spells below a root. `derive` reads an identifier
back from such a path: it looks for the first occurrence of a base namespace in the dotted
spelling of the folder.
-/

namespace LiveRules.Naming

open Text

def artifactExtension : String := "unit"
def sourceExtension : String := "rule"
def packExtension : String := "pack"

inductive Error where
  | namespaceNotFound (base : String) (path : Path)
  | invalidPath (path : Path)
  deriving DecidableEq

def Error.message : Error → String
  | .namespaceNotFound base path =>
    "namespace `" ++ base ++ "` not found in path `" ++ path.text ++ "`"
  | .invalidPath path => "artifact path `" ++ path.text ++ "` has no parent directory or file name"

def isLetter (c : Char) : Bool := ('a' ≤ c && c ≤ 'z') || ('A' ≤ c && c ≤ 'Z') || c == '_'

def isLetterOrDigit (c : Char) : Bool := isLetter c || ('0' ≤ c && c ≤ '9')

def isSegment : List Char → Bool
  | [] => false
  | c :: cs => isLetter c && cs.all isLetterOrDigit

/-- One or more segments of ASCII letters, digits and underscores, none starting with a digit. -/
def isNamespace (s : String) : Bool := (split '.' s.toList).all isSegment

/-- Item names are single segments. -/
def isItemName (s : String) : Bool := !s.toList.contains '.' && isNamespace s

/-- A namespace and a simple name. -/
def splitIdentifier (identifier : String) : String × String :=
  match splitLast? '.' identifier.toList with
  | some (before, after) => (.ofList before, .ofList after)
  | none => ("", identifier)

/-- The folder of a namespace below a root; empty segments are left out. -/
def folder (root : Path) (base : String) : Path :=
  ((split '.' base.toList).filter fun s => !s.isEmpty).foldl
    (fun dir s => dir.join ⟨.ofList s⟩) root

def artifactPath (root : Path) (identifier : String) : Path :=
  let (base, name) := splitIdentifier identifier
  (folder root base).join ⟨name ++ "." ++ artifactExtension⟩

/-- The names of a folder, joined by points. -/
def dotted (dir : Path) : List Char :=
  joined ['.'] (dir.components.filterMap fun
    | .name s => some s.toList
    | _ => none)

def derive (artifact : Path) (base : String) : Except Error String :=
  match artifact.parent?, artifact.stem? with
  | some dir, some stem =>
    match fromFirst? base.toList (dotted dir) with
    | some found => .ok (.ofList (found ++ '.' :: stem.toList))
    | none => .error (.namespaceNotFound base artifact)
  | _, _ => .error (.invalidPath artifact)

end LiveRules.Naming
