import LiveRules.Artifact.Store
import LiveRules.Digest.Content

/-!
Packs: archives of compiled units, keyed by identifier and stamped with a digest over the
identifiers and source hashes in the order of the keys. A pack is stored under a temporary name
and then moved, so that a failing write leaves an older pack as it was.
-/

namespace LiveRules

open Text (Bytes)

/-- The units under their keys, the keys increasing. -/
structure Pack where
  digest : String
  units : List (String × Artifact)
  deriving DecidableEq, Inhabited

inductive PackError where
  | io (path : Path) (cause : OsError)
  | malformed (path : Path)
  | artifact (cause : ArtifactError)
  deriving DecidableEq, Inhabited

def PackError.message : PackError → String
  | .io path _ => "IO error on archive `" ++ path.text ++ "`"
  | .malformed path => "malformed archive `" ++ path.text ++ "`"
  | .artifact cause => cause.message

/-- Stands for what a reader of texts says about a text that it cannot read. -/
def unreadableText : String := "<json>"

/-- The message with its cause. -/
def PackError.fullText : PackError → String
  | .io path cause => (PackError.io path cause).message ++ ": " ++ cause.message
  | .malformed path => (PackError.malformed path).message ++ ": " ++ unreadableText
  | .artifact cause => cause.fullText

namespace Pack

/-- The unit that every rule may extend. -/
def runtimeBase : String := "org.hotrules.runtime.Rule"

def runtimePackName : String := "runtime.pack"
def itemsPackName : String := "items.pack"

/-- Puts a value under a key of a list with increasing keys. -/
def insert {α : Type} (key : String) (value : α) : List (String × α) → List (String × α)
  | [] => [(key, value)]
  | (k, v) :: rest =>
    if k = key then (key, value) :: rest
    else if key < k then (key, value) :: (k, v) :: rest
    else (k, v) :: insert key value rest

/-- Later values replace earlier ones under the same key. -/
def keyed {α : Type} (pairs : List (String × α)) : List (String × α) :=
  pairs.foldl (fun m x => insert x.1 x.2 m) []

def digestInput (units : List (String × Artifact)) : String :=
  units.foldl (fun s x => s ++ x.1 ++ x.2.sourceHash) ""

def ofUnits (units : List Artifact) : Pack :=
  let units := keyed (units.map fun a => (a.identifier, a))
  ⟨(ContentHash.ofText (digestInput units)).hex, units⟩

def get? (p : Pack) (identifier : String) : Option Artifact :=
  (p.units.find? fun x => x.1 == identifier).map (·.2)

def toJson (p : Pack) : Json :=
  .fields [
    ("digest", .string p.digest),
    ("units", .fields (p.units.map fun x => (x.1, x.2.toJson)))]

def unitsOfJson? : Json → Option (List (String × Artifact))
  | .object members =>
    (members.mapM fun (m : Option String × Json) => do
      let key ← m.1
      let unit ← Artifact.ofJsonWithin? 2 m.2
      some (key, unit)).map keyed
  | _ => none

def ofJson? (json : Json) : Option Pack :=
  match json.record? ["digest", "units"] 2 with
  | some [digest, units] => do
    some {
      digest := ← Json.required Json.string? digest
      units := ← Json.required unitsOfJson? units }
  | _ => none

def text (p : Pack) : String := p.toJson.pretty

def ofText? (s : String) : Option Pack := (Json.parse? s).bind ofJson?

/-- Opens the pack at a path. -/
def read (d : Disk) (path : Path) : Except PackError Pack :=
  match d.readText path with
  | .error e => .error (.io path e)
  | .ok s =>
    match ofText? s with
    | some p => .ok p
    | none => .error (.malformed path)

def temporary (path : Path) : Path := path.withExtension "pack.tmp"

def save (p : Pack) (d : Disk) (path : Path) : Except PackError Unit × Disk :=
  match d.makeFolders (path.parent?.getD ⟨""⟩) with
  | (.error e, d) => (.error (.io path e), d)
  | (.ok _, d) =>
    match d.write (temporary path) (Text.encode p.text) with
    | (.error e, d) => (.error (.io path e), d)
    | (.ok _, d) =>
      match d.move (temporary path) path with
      | (.error e, d) => (.error (.io path e), d)
      | (.ok _, d) => (.ok (), d)

def readAll (d : Disk) : List Path → Except ArtifactError (List Artifact)
  | [] => .ok []
  | path :: rest =>
    match Artifact.read d path with
    | .error e => .error e
    | .ok a =>
      match readAll d rest with
      | .error e => .error e
      | .ok as => .ok (a :: as)

/-- Packs every unit below a folder and gives their number. -/
def packFolder (d : Disk) (folder path : Path) : Except PackError Nat × Disk :=
  match readAll d (d.collect folder Naming.artifactExtension) with
  | .error e => (.error (.artifact e), d)
  | .ok units =>
    let pack := ofUnits units
    match pack.save d path with
    | (.error e, d) => (.error e, d)
    | (.ok _, d) => (.ok pack.units.length, d)

/-- The release that the built-in base unit belongs to. -/
def release : String := "0.1.0"

def runtime : Pack :=
  ofUnits [{
    identifier := runtimeBase
    kind := .rule
    isAbstract := true
    constructible := true
    sourceHash := release }]

end Pack

end LiveRules
