import LiveRules.Console
import LiveRules.Files.Disk
import LiveRules.Text.Quoted

/-!
Changes of sources. A file system tells about its files in its own way; `FileEvent.changes` gives
the changes of those files that have an extension and are not the temporary files of an editor.
-/

namespace LiveRules

inductive ChangeKind where
  | created
  | modified
  | deleted
  deriving DecidableEq, Inhabited

def ChangeKind.label : ChangeKind → String
  | .created => "created"
  | .modified => "modified"
  | .deleted => "deleted"

structure Change where
  kind : ChangeKind
  path : Path
  deriving DecidableEq, Inhabited

def Change.text (x : Change) : String := x.kind.label ++ ": " ++ x.path.text

/-- Which names of a moved file an event has. -/
inductive MoveNames where
  | source
  | target
  | both
  | unknown
  deriving DecidableEq

inductive FileEventKind where
  | create
  | remove
  | modify
  | metadata
  | move (names : MoveNames)
  | other
  deriving DecidableEq

structure FileEvent where
  kind : FileEventKind
  paths : List Path
  /-- Events were lost, this one tells nothing but that. -/
  isOverflow : Bool := false
  deriving DecidableEq

namespace FileEvent

def temporaryExtensions : List String := ["bck", "bak", "backup", "swp", "swo", "tmp"]

/-- Whether a file is a backup or a temporary file, as editors leave them. -/
def isTemporary (p : Path) : Bool :=
  let name := (p.fileName?.getD "").toList
  temporaryExtensions.contains (p.extension?.getD "") || name.getLast? == some '~' ||
    name.head? == some '.'

/-- The kind of change of the path at a position, if such events tell about changes. -/
def changeKind? (d : Disk) (kind : FileEventKind) (position : Nat) (p : Path) :
    Option ChangeKind :=
  match kind with
  | .create | .move .target => some .created
  | .remove | .move .source => some .deleted
  | .modify => some .modified
  | .move .both => some (if position = 0 then .deleted else .created)
  | .move .unknown => some (if d.isThere p then .created else .deleted)
  | .metadata | .other => none

def changesFrom (d : Disk) (ext : String) (kind : FileEventKind) : Nat → List Path → List Change
  | _, [] => []
  | position, p :: rest =>
    let here : List Change :=
      if p.hasExtension ext && !isTemporary p then
        match changeKind? d kind position p with
        | some k => [⟨k, p⟩]
        | none => []
      else []
    here ++ changesFrom d ext kind (position + 1) rest

/-- The changes that an event tells, in the order of its paths. -/
def changes (d : Disk) (ext : String) (e : FileEvent) : List Change × List Note :=
  if e.isOverflow then
    ([], [note "watch" ("event overflow, changes may be missed: [" ++
      Text.joinedStrings ", " (e.paths.map fun p => Text.quoted p.text) ++ "]")])
  else (changesFrom d ext e.kind 0 e.paths, [])

end FileEvent

end LiveRules
