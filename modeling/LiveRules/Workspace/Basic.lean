import LiveRules.Compile.Pass
import LiveRules.Engine.Generation
import LiveRules.Item.Registry
import LiveRules.Watch.Pending
import LiveRules.Watch.Watcher
import LiveRules.Workspace.Phase

/-!
Workspaces. A workspace keeps the items of a registry, their stubs and units, the compiled rules
and the engine that runs them in step. Its journal lists what it has done for others to see.
-/

namespace LiveRules

/-- What a workspace does that is seen from outside. -/
inductive Act where
  | told (x : Output)
  /-- The items were packed, or it was tried. -/
  | packed
  /-- Compiled rules were loaded into a new generation. -/
  | loaded
  /-- The engine was joined to the events, or parted from them. -/
  | subscribed
  | unsubscribed
  deriving DecidableEq

structure Workspace where
  config : Config
  tool : Tool
  /-- Whether the rules are watched once they are loaded. -/
  watches : Bool
  registry : Registry
  disk : Disk
  engine : Engine := {}
  phase : Phase := .uninitialized
  /-- The items pack does not hold what the stubs say. -/
  itemsStale : Bool := true
  /-- The number of the last generation. -/
  generation : Nat := 0
  /-- The last compilation of the rules succeeded. -/
  rulesOk : Bool := false
  watcher : Option Watcher := none
  /-- Whether events are taken from a queue, until the workspace is disposed. -/
  hasLoop : Bool := false
  pending : Pending := ⟨config.debounce, [], none⟩
  journal : List Act := []

namespace Workspace

def record (w : Workspace) (acts : List Act) : Workspace :=
  { w with journal := w.journal ++ acts }

def tell (w : Workspace) (notes : List Note) : Workspace :=
  w.record (notes.map fun n => .told (.note n))

/-- A workspace over the items of a registry, before anything is done. -/
def new (config : Config) (tool : Tool) (watches : Bool) (registry : Registry) (disk : Disk) :
    Workspace := { config, tool, watches, registry, disk }

/-- What was told, in order. -/
def outputs (journal : List Act) : List Output :=
  journal.filterMap fun
    | .told x => some x
    | _ => none

def isWatching (w : Workspace) : Bool :=
  match w.watcher with
  | some watcher => watcher.isRunning
  | none => false

def dispatch (w : Workspace) (e : Event) : Dispatch × Workspace :=
  let (fired, notes) := w.engine.dispatch e
  (fired, w.tell notes)

end Workspace

end LiveRules
