import LiveRules.Item.Shelf
import LiveRules.Workspace.Basic

/-!
Keeping the items of a workspace in step: stubs follow the registry, units follow the stubs, and
the items pack follows the units. The workspace remembers when the pack is behind.
-/

namespace LiveRules.Workspace

/-- Brings all stubs in line with the registry. -/
def generateStubs (w : Workspace) : Workspace :=
  let x := Shelf.fill w.config w.disk w.registry.items
  { w with
    disk := x.disk
    itemsStale := w.itemsStale || 0 < x.written + x.removed }.tell x.notes

/-- Applies one change of the registry to the stubs. -/
def applyEvent (w : Workspace) (e : RegistryEvent) : Workspace :=
  let name := e.name
  if !Naming.isItemName name then
    w.tell [note "error" ("entity `" ++ name ++ "`: not a valid item name, ignored")]
  else
    let done : Shelved :=
      match e with
      | .removed name =>
        let (result, disk) := Stub.remove w.config w.disk name
        ⟨result.map fun _ => true, disk, [quietNote "items" ("entity removed: " ++ name)]⟩
      | .added item | .updated item =>
        let done := Stub.write w.config w.disk item
        { done with notes := quietNote "items" ("entity changed: " ++ item.name) :: done.notes }
    let w := { w with disk := done.disk }.tell done.notes
    match done.result with
    | .ok true => { w with itemsStale := true }
    | .ok false => w
    | .error e => w.tell [note "error" (name ++ ": " ++ e.text)]

/-- Packs the units of the items. -/
def packItems (w : Workspace) : Bool × Workspace :=
  let archive := w.config.itemsPack
  let (result, disk) := Pack.packFolder w.disk w.config.folders.items archive
  let w := { w with disk }.record [.packed]
  match result with
  | .ok n =>
    (true, { w with itemsStale := false }.tell
      [note "items" ("packed " ++ toString n ++ " item(s) into " ++ archive.text)])
  | .error e => (false, w.tell [note "error" ("failed to pack items: " ++ e.fullText)])

/-- Compiles the stubs that have no unit and packs the items, if the pack is behind; says whether
the pack holds what the stubs say. -/
def rebuildItems (w : Workspace) : Bool × Workspace :=
  if !w.itemsStale then (true, w)
  else
    let x := Pass.compileItems w.tool w.config w.disk
    let w := { w with disk := x.disk }.tell x.notes
    match x.outcome with
    | .error e => (false, w.tell [note "error" ("items compilation failed: " ++ e.fullText)])
    | .ok o => if o.succeeded then w.packItems else (false, w)

/-- Applies changes of the registry that came in together. -/
def registryChanged (w : Workspace) (events : List RegistryEvent) : Workspace :=
  if w.phase = .disposed then w
  else (events.foldl applyEvent w).rebuildItems.2

end LiveRules.Workspace
