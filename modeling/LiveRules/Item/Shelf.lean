import LiveRules.Config
import LiveRules.Console
import LiveRules.Files.Find
import LiveRules.Item.Registry
import LiveRules.Item.Stub

/-!
Stubs on a disk. The stub of an item lies in the folder of the items namespace. A stub that is
written anew loses its unit, so that a pass over the stubs without units compiles it.
-/

namespace LiveRules

inductive ShelfError where
  | folder (path : Path) (cause : OsError)
  | write (path : Path) (cause : OsError)
  | remove (path : Path) (cause : OsError)
  deriving DecidableEq

def ShelfError.text : ShelfError → String
  | .folder path cause => "failed to create " ++ path.text ++ ": " ++ cause.message
  | .write path cause => "failed to write stub " ++ path.text ++ ": " ++ cause.message
  | .remove path cause => "failed to remove " ++ path.text ++ ": " ++ cause.message

/-- What becomes of a stub: whether anything changed, or what failed. -/
structure Shelved where
  result : Except ShelfError Bool
  disk : Disk
  notes : List Note := []

namespace Stub

def path (c : Config) (item : String) : Path := c.stubFolder.join ⟨fileName item⟩

def unitPath (c : Config) (item : String) : Path :=
  Naming.artifactPath c.folders.items (identifier c.itemsNamespace item)

/-- Removes a file; one that is not there needs no removal. -/
def removeIfThere (d : Disk) (p : Path) : Except ShelfError Bool × Disk :=
  match d.removeFile p with
  | (.ok _, d) => (.ok true, d)
  | (.error .notFound, d) => (.ok false, d)
  | (.error e, d) => (.error (.remove p e), d)

/-- Writes the stub of an item where it differs, and removes its unit then. -/
def write (c : Config) (d : Disk) (item : Item) : Shelved :=
  let p := path c item.name
  let content := text c.itemsNamespace item
  if ContentHash.ofFile d p = ContentHash.ofText content then
    ⟨.ok false, d, [quietNote "items" ("stub unchanged: " ++ item.name)]⟩
  else
    let folder := p.parent?.getD ⟨""⟩
    match d.makeFolders folder with
    | (.error e, d) => ⟨.error (.folder folder e), d, []⟩
    | (.ok _, d) =>
      match d.write p (Text.encode content) with
      | (.error e, d) => ⟨.error (.write p e), d, []⟩
      | (.ok _, d) =>
        match removeIfThere d (unitPath c item.name) with
        | (.error e, d) => ⟨.error e, d, []⟩
        | (.ok _, d) => ⟨.ok true, d, [quietNote "items" ("stub written: " ++ p.text)]⟩

/-- Removes the stub of an item and its unit, and says whether one of them was there. -/
def remove (c : Config) (d : Disk) (item : String) : Except ShelfError Bool × Disk :=
  match removeIfThere d (path c item) with
  | (.error e, d) => (.error e, d)
  | (.ok stub, d) =>
    match removeIfThere d (unitPath c item) with
    | (.error e, d) => (.error e, d)
    | (.ok unit, d) => (.ok (stub || unit), d)

/-- The item that a file name stands for. -/
def itemOf? (file : Path) : Option String :=
  match mark.toList.isPrefixOf? file.stem.toList with
  | some name => some (.ofList name)
  | none => none

end Stub

/-- The stubs while they are brought in line with the items. -/
structure Shelf where
  disk : Disk
  written : Nat := 0
  removed : Nat := 0
  notes : List Note := []

namespace Shelf

def put (c : Config) (x : Shelf) (item : Item) : Shelf :=
  if !Naming.isItemName item.name then
    { x with notes := x.notes ++
        [note "error" ("entity `" ++ item.name ++ "`: not a valid item name, skipped")] }
  else
    let done := Stub.write c x.disk item
    let x := { x with disk := done.disk, notes := x.notes ++ done.notes }
    match done.result with
    | .ok true => { x with written := x.written + 1 }
    | .ok false => x
    | .error e => { x with notes := x.notes ++ [note "error" e.text] }

def drop (c : Config) (x : Shelf) (item : String) : Shelf :=
  match Stub.remove c x.disk item with
  | (.ok _, d) => { x with disk := d, removed := x.removed + 1 }
  | (.error e, d) => { x with disk := d, notes := x.notes ++ [note "error" e.text] }

/-- Items that have a stub and are not among the known ones. -/
def leftovers (c : Config) (d : Disk) (known : List String) : List String :=
  ((d.listed c.stubFolder Naming.sourceExtension).filterMap Stub.itemOf?).filter fun name =>
    !known.contains name

/-- Writes a stub for every item and removes the stubs of all others. -/
def fill (c : Config) (d : Disk) (items : List Item) : Shelf :=
  let x := items.foldl (put c) { disk := d }
  let x := (leftovers c x.disk (items.map (·.name))).foldl (drop c) x
  { x with notes := x.notes ++ [note "items" (toString items.length ++ " entities, " ++
      toString x.written ++ " stub(s) written, " ++ toString x.removed ++ " removed")] }

end Shelf

end LiveRules
