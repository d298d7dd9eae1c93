import LiveRules.Console
import LiveRules.Pack

/-!
Class paths: folders of compiled units and packs, in order. Every look-up walks the entries and
takes the first hit.
-/

namespace LiveRules

inductive LoadError where
  | naming (cause : Naming.Error)
  | notFound (identifier : String)
  | artifact (cause : ArtifactError)
  | isAbstract (identifier : String)
  | noConstructor (identifier : String)
  | unresolvedBase (identifier base : String)
  | cycle (identifier : String)
  deriving DecidableEq

def LoadError.message : LoadError → String
  | .naming cause => cause.message
  | .notFound identifier => "type `" ++ identifier ++ "` not found on the class path"
  | .artifact cause => cause.message
  | .isAbstract identifier => "`" ++ identifier ++ "` is abstract"
  | .noConstructor identifier => "`" ++ identifier ++ "` has no zero-argument constructor"
  | .unresolvedBase identifier base =>
    "base type `" ++ base ++ "` of `" ++ identifier ++ "` cannot be resolved"
  | .cycle identifier => "inheritance cycle through `" ++ identifier ++ "`"

namespace ClassPath

inductive Entry where
  | folder (path : Path)
  | pack (path : Path) (content : Pack)
  deriving DecidableEq

def Entry.path : Entry → Path
  | .folder path | .pack path _ => path

end ClassPath

abbrev ClassPath := List ClassPath.Entry

namespace ClassPath

/-- The paths of the entries with `:` between them. -/
def text (cp : ClassPath) : String := Text.joinedStrings ":" (cp.map fun e => e.path.text)

/-- The unit that an entry holds under an identifier. A file that is there but cannot be read is an
error. -/
def Entry.find? (d : Disk) (identifier : String) : Entry → Except LoadError (Option Artifact)
  | .folder path =>
    let file := Naming.artifactPath path identifier
    if d.isFile file then
      match Artifact.read d file with
      | .ok a => .ok (some a)
      | .error e => .error (.artifact e)
    else .ok none
  | .pack _ content => .ok (content.get? identifier)

def find? (d : Disk) (identifier : String) : ClassPath → Except LoadError (Option Artifact)
  | [] => .ok none
  | entry :: rest =>
    match entry.find? d identifier with
    | .error e => .error e
    | .ok (some a) => .ok (some a)
    | .ok none => find? d identifier rest

def contains (d : Disk) (cp : ClassPath) (identifier : String) : Bool :=
  match cp.find? d identifier with
  | .ok (some _) => true
  | _ => false

def resolve (d : Disk) (cp : ClassPath) (identifier : String) : Except LoadError Artifact :=
  match cp.find? d identifier with
  | .error e => .error e
  | .ok none => .error (.notFound identifier)
  | .ok (some a) => .ok a

/-- The item that a unit declares, with the identifier of the unit. -/
def declared? (a : Artifact) : Option (String × String) :=
  match a.kind with
  | .rule => none
  | .item => a.item.map fun item => (item.name, a.identifier)

/-- The readable units of a folder and the notes about the others. -/
def unitsOf (d : Disk) (folder : Path) : List Artifact × List Note :=
  (d.collect folder Naming.artifactExtension).foldr (fun path (units, notes) =>
    match Artifact.read d path with
    | .ok a => (a :: units, notes)
    | .error e =>
      (units, quietNote "load" ("skipping " ++ path.text ++ ": " ++ e.message) :: notes)) ([], [])

def Entry.items (d : Disk) : Entry → List (String × String)
  | .folder path => (unitsOf d path).1.filterMap declared?
  | .pack _ content => content.units.filterMap fun x => declared? x.2

/-- Item names with the units that declare them, in the order of the look-up. -/
def items (d : Disk) (cp : ClassPath) : List (String × String) := cp.flatMap (Entry.items d)

def Entry.itemNotes (d : Disk) : Entry → List Note
  | .folder path => (unitsOf d path).2
  | .pack .. => []

/-- What is told about units that are left out of `items`. -/
def itemNotes (d : Disk) (cp : ClassPath) : List Note := cp.flatMap (Entry.itemNotes d)

/-- The unit that declares an item. -/
def findItem? (d : Disk) (cp : ClassPath) (item : String) : Option String :=
  (cp.items d).lookup item

/-- The units of a pack, with their keys. -/
def Entry.packed : Entry → List (String × Artifact)
  | .folder _ => []
  | .pack _ content => content.units

/-- How many units there can be at most. -/
def unitBound (d : Disk) (cp : ClassPath) : Nat :=
  d.entries.length + (cp.flatMap Entry.packed).length

end ClassPath

end LiveRules
