import LiveRules.Watch.Change

/-!
Events of files found by comparing what lies on a disk at two times.
-/

namespace LiveRules.FileEvent

def placed (place : Place) : Path := ⟨"/" ++ Text.joinedStrings "/" place⟩

def eventOf (kind : FileEventKind) (place : Place) : FileEvent := { kind, paths := [placed place] }

def vanished (before after : List (Place × Entry)) : List FileEvent :=
  before.filterMap fun x =>
    if (Disk.lookup x.1 after).isNone then some (eventOf .remove x.1) else none

def appeared (before after : List (Place × Entry)) : List FileEvent :=
  after.filterMap fun x =>
    match Disk.lookup x.1 before with
    | none => some (eventOf .create x.1)
    | some e => if e = x.2 then none else some (eventOf .modify x.1)

/-- What has happened between two states of a disk. -/
def between (before after : List (Place × Entry)) : List FileEvent :=
  vanished before after ++ appeared before after

end LiveRules.FileEvent
