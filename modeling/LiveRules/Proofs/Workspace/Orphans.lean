import LiveRules.Proofs.Item.Leftovers
import LiveRules.Proofs.Workspace.Stale

/-!
Units that outlive their items. Whatever an earlier run has left among the items, a start forgets
every stub of an item that is gone, and the unit beside it. A unit that lies there without a stub is
an orphan: nobody looks for it, and so it gets into the pack of the items with the others.
-/

namespace LiveRules

open Disk RegistryEvent

variable {c : Config} {I J K : Place} {N : String → Prop} {d e : Disk} {names : List String}

namespace Workspace

variable {w : Workspace}

/-! ### Setting up -/

/-- The disk of a workspace that starts, when its stubs are compiled and the units that are there go
into the pack. -/
def itemsCompiled (w : Workspace) : Disk :=
  (Pass.compileItems w.tool w.config
    (Shelf.fill w.config (setUp w.config w.disk).2 w.registry.items).disk).disk

namespace CanTidy

end CanTidy

end Workspace

end LiveRules
