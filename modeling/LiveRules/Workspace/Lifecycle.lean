import LiveRules.Workspace.Items
import LiveRules.Workspace.Rules

/-!
The life of a workspace: it is started once, phase by phase, and disposed at the end. In
between it follows the changes of the registry and of the rules.
-/

namespace LiveRules.Workspace

inductive SetupError where
  | folder (path : Path) (cause : OsError)
  | install (path : Path) (cause : PackError)
  deriving DecidableEq

def SetupError.text : SetupError → String
  | .folder path cause => "failed to create directory " ++ path.text ++ ": " ++ cause.message
  | .install path cause => "failed to install " ++ path.text ++ ": " ++ cause.fullText

def setupFolders (c : Config) : List Path :=
  [c.folders.workingDir, c.stubFolder, c.folders.rules, c.folders.ruleClasses, c.folders.extlib,
    c.folders.jar]

def makeAll (d : Disk) : List Path → Except SetupError Unit × Disk
  | [] => (.ok (), d)
  | folder :: rest =>
    match d.makeFolders folder with
    | (.error e, d) => (.error (.folder folder e), d)
    | (.ok _, d) => makeAll d rest

/-- Makes all folders and installs the pack of the built-in units. -/
def setUp (c : Config) (d : Disk) : Except SetupError Unit × Disk :=
  match makeAll d (setupFolders c) with
  | (.error e, d) => (.error e, d)
  | (.ok _, d) =>
    match Pack.runtime.save d c.runtimePack with
    | (.error e, d) => (.error (.install c.runtimePack e), d)
    | (.ok _, d) => (.ok (), d)

def prepareItems (w : Workspace) : Workspace :=
  let w := { w.generateStubs with phase := .stubsGenerated }
  let (isFresh, w) := w.rebuildItems
  let w :=
    if isFresh then w
    else w.tell [note "error" "items are stale, rules may not resolve them"]
  { w with phase := .itemsCompiled }

def prepareRules (w : Workspace) : Workspace :=
  let w := { w.compileRules with phase := .rulesCompiled }
  let w := { w.loadRules.record [.subscribed] with phase := .instancesLoaded }
  w.tell [note "init" (toString w.activeRules ++ " rule(s) active")]

/-- Starts to watch the rules, if that is wanted. -/
def startWatcher (w : Workspace) : Workspace :=
  if w.watches then
    let (watcher, notes) := Watcher.start w.disk w.config.folders.rules Naming.sourceExtension
    { w with
      watcher := some watcher
      phase := if watcher.isRunning then .watching else w.phase }.tell notes
  else w

/-- Goes through all phases up to the loaded rules. A workspace whose folders cannot be made stays
uninitialized; a compilation that fails does not keep the rest from being loaded. -/
def start (w : Workspace) : Workspace :=
  if w.phase ≠ .uninitialized then
    w.tell [quietNote "init" ("already initialized (" ++ w.phase.label ++ ")")]
  else
    let (result, disk) := setUp w.config w.disk
    let w := { w with disk }
    match result with
    | .error e => w.tell [note "error" e.text]
    | .ok _ =>
      let w := { w with phase := .foldersReady }.tell
        [quietNote "init" ("folders ready below " ++ w.config.folders.workingDir.text)]
      { w.prepareItems.prepareRules.startWatcher with hasLoop := true }

def stopWatcher (w : Workspace) : Workspace :=
  match w.watcher with
  | none => w
  | some watcher =>
    let (exit, _, notes) := watcher.stop
    { w with watcher := none }.tell
      (notes ++ [quietNote "dispose" ("watcher exit: " ++ WatchExit.textOf exit)])

def stopLoop (w : Workspace) : Workspace :=
  if w.hasLoop then
    { w with hasLoop := false }.tell [quietNote "coordinator" "loop stopped"]
  else w

/-- Ends all activity and empties the engine. -/
def dispose (w : Workspace) : Workspace :=
  if w.phase = .disposed then w
  else
    let w := { w with engine := w.engine.reset, phase := .disposed }
    (w.stopWatcher.stopLoop.record [.unsubscribed]).tell [note "dispose" "rules disposed"]

end LiveRules.Workspace
