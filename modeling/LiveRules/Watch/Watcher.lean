import LiveRules.Watch.Change

/-!
Watching a folder. A watcher looks at one folder until it is stopped or its folder is gone, and
turns the events of files below it into changes.
-/

namespace LiveRules

inductive WatchExit where
  | interrupted
  | rootGone
  | notFolder
  deriving DecidableEq, Inhabited

def WatchExit.text : WatchExit → String
  | .interrupted => "Interrupted"
  | .rootGone => "RootInvalidated"
  | .notFolder => "NotADirectory"

/-- The exit of a watcher that may have been stopped before. -/
def WatchExit.textOf : Option WatchExit → String
  | some x => "Some(" ++ x.text ++ ")"
  | none => "None"

inductive WatchState where
  | running
  | ended (why : WatchExit)
  | stopped
  deriving DecidableEq, Inhabited

structure Watcher where
  root : Path
  extension : String
  state : WatchState
  deriving DecidableEq, Inhabited

namespace Watcher

def isRunning (w : Watcher) : Bool := w.state == .running

def start (d : Disk) (root : Path) (ext : String) : Watcher × List Note :=
  if d.isFolder root then
    (⟨root, ext, .running⟩, [note "watch" ("watching " ++ root.text)])
  else
    (⟨root, ext, .ended .notFolder⟩,
      [note "watch" (root.text ++ " is not a directory, watcher not started")])

/-- The changes that an event of the file system brings. -/
def observe (d : Disk) (w : Watcher) (e : FileEvent) : List Change × Watcher × List Note :=
  if !w.isRunning then ([], w, [])
  else if !d.isFolder w.root then
    ([], { w with state := .ended .rootGone },
      [note "watch" (w.root.text ++ " was removed, watcher stopped")])
  else
    let (changes, notes) := e.changes d w.extension
    (changes, w, notes ++ changes.map fun x =>
      quietNote "watch" (x.kind.label ++ " " ++ x.path.text))

/-- Stops a watcher and gives why it ended, once. -/
def stop (w : Watcher) : Option WatchExit × Watcher × List Note :=
  let stopped := { w with state := .stopped }
  match w.state with
  | .running => (some .interrupted, stopped, [quietNote "watch" "watcher interrupted"])
  | .ended why => (some why, stopped, [])
  | .stopped => (none, stopped, [])

end Watcher

end LiveRules
