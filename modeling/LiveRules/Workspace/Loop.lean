import LiveRules.Workspace.Lifecycle

/-!
What a workspace does on its own: changes of rules that its watcher sees are gathered until they
come to rest, and lead to one reload.
-/

namespace LiveRules.Workspace

def tellChanges (w : Workspace) (changes : List Change) : Workspace :=
  w.tell (changes.map fun x => note "watch" x.text)

/-- Reloads the rules for changes of their sources. -/
def rulesChanged (w : Workspace) (changes : List Change) : Workspace :=
  (w.tellChanges changes).reload

/-- Told once a watcher has ended by itself. -/
def watchingEnded : Note :=
  note "watch" "watcher stopped, rules are no longer reloaded on change"

/-- Takes an event of the file system at a time. -/
def observe (now : Time) (w : Workspace) (e : FileEvent) : Workspace :=
  match w.watcher with
  | none => w
  | some watcher =>
    let (changes, watcher', notes) := watcher.observe w.disk e
    let ended := if watcher.isRunning && !watcher'.isRunning then [watchingEnded] else []
    let (pending, restored) := w.pending.addAll now changes
    { w with watcher := some watcher', pending }.tell (notes ++ ended ++ restored)

/-- Reloads the rules if changes have come to rest by a time. -/
def settle (now : Time) (w : Workspace) : Workspace :=
  match w.pending.take? now with
  | (some changes, pending) => { w with pending }.rulesChanged changes
  | (none, _) => w

end LiveRules.Workspace
