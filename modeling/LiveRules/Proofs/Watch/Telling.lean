import LiveRules.Proofs.Files.Finding
import LiveRules.Source
import LiveRules.Watch.Change

/-!
What an event tells. Of the paths of an event those are told that have the extension and are not
temporary files, each of them once and in their order; what is told of a path is decided by where it
stands among all paths of the event, those that are left out included. Sources that a search finds
are never left out.
-/

namespace LiveRules

open Disk

namespace FileEvent

/-- What an event of some kind says of the path at a position. -/
inductive Says (d : Disk) : FileEventKind → Nat → Path → ChangeKind → Prop where
  | create {k p} : Says d .create k p .created
  | remove {k p} : Says d .remove k p .deleted
  | modify {k p} : Says d .modify k p .modified
  | source {k p} : Says d (.move .source) k p .deleted
  | target {k p} : Says d (.move .target) k p .created
  | first {p} : Says d (.move .both) 0 p .deleted
  | later {k p} (hk : k ≠ 0) : Says d (.move .both) k p .created
  | there {k p} (hp : d.isThere p = true) : Says d (.move .unknown) k p .created
  | gone {k p} (hp : d.isThere p = false) : Says d (.move .unknown) k p .deleted

variable {d : Disk} {ext : String} {kind : FileEventKind} {k n : Nat} {p q : Path}
variable {paths : List Path} {names : List String}

/-- The paths that are told, with their positions among all paths. -/
def told (ext : String) (n : Nat) (paths : List Path) : List (Path × Nat) :=
  (paths.zipIdx n).filter fun x => x.1.hasExtension ext && !isTemporary x.1

/-- An editor moves its temporary file to a source. -/
def saved : FileEvent where
  kind := .move .both
  paths := [⟨"/r/A.rule~"⟩, ⟨"/r/A.rule"⟩]

end FileEvent

end LiveRules
