import LiveRules.CommandLine
import LiveRules.Config.Document
import LiveRules.Workspace.Loop

/-!
The commands of the program. Each finds its configuration, opens a workspace over the configured
items and starts it; all but `watch` dispose it at once and then tell what they found.
-/

namespace LiveRules

/-- The event that a command line describes. A change without a previous state comes from the
empty state; updates and commands have no previous state. -/
def Event.ofLine (item state : String) (previous : Option String) (kind : Trigger) : Event :=
  match kind with
  | .changed => { item, kind, state, previous := some (previous.getD "") }
  | kind => { item, kind, state }

inductive ProgramError where
  | config (cause : ConfigError)
  | compiler (cause : CompileError)
  | folders (workingDir : Path)
  | items
  | rules
  deriving DecidableEq

def ProgramError.message : ProgramError → String
  | .config cause => cause.message
  | .compiler cause => cause.message
  | .folders workingDir => "failed to prepare " ++ workingDir.text
  | .items => "items failed to compile"
  | .rules => "rules failed to compile"

/-- What a run leaves behind. -/
structure Ran where
  failure : Option ProgramError := none
  disk : Disk
  outputs : List Output := []

namespace Program

/-- The surroundings of a run. -/
structure Surroundings where
  home : String
  /-- The folder that the program runs in. -/
  folder : Path

/-- A workspace that has started, or how that failed. -/
inductive Opened where
  | failed (x : Ran)
  | ready (w : Workspace)

def openWorkspace (c : Config) (tool : Tool) (watches : Bool) (d : Disk) (notes : List Note) :
    Opened :=
  let w := (Workspace.new c tool watches (Registry.ofItems c.items) d).tell notes
  let w := w.start
  if w.phase = .uninitialized then
    .failed {
      failure := some (.folders c.folders.workingDir)
      disk := w.disk
      outputs := Workspace.outputs w.journal }
  else .ready w

/-- Finds the configuration and starts a workspace. Only a run that watches may start a watcher. -/
def start (s : Surroundings) (d : Disk) (settings : CommandLine.Settings) (watches : Bool) :
    Opened :=
  let loaded := Config.load d s.home s.folder settings.config settings.workingDir
  let outputs := Output.ofNotes loaded.notes
  match loaded.result with
  | .error e => .failed { failure := some (.config e), disk := d, outputs }
  | .ok c =>
    match Tool.ofCommand d c.command with
    | .error e => .failed { failure := some (.compiler e), disk := d, outputs }
    | .ok tool => openWorkspace c tool (watches && c.watches) d loaded.notes

def ended (w : Workspace) (failure : Option ProgramError) (more : List Output) : Ran :=
  { failure, disk := w.disk, outputs := Workspace.outputs w.journal ++ more }

def compile (w : Workspace) : Ran :=
  let g := w.engine.current
  let w := w.dispose
  if w.itemsStale then ended w (some .items) []
  else if !w.rulesOk then ended w (some .rules) []
  else
    ended w none [.note (note "compile" (toString g.instances.length ++ " rule instance(s), " ++
      toString g.contexts.length ++ " execution context(s)"))]

def list (w : Workspace) : Ran :=
  let found := w.engine.current.contexts
  ended w.dispose none
    (if found.isEmpty then [.note (note "list" "no rules loaded")]
      else found.map fun c => .line c.text)

def firedLines (fired : Dispatch) : List Output :=
  fired.flatMap fun f => .line f.1 :: f.2.map fun x => .line ("  " ++ x.text)

def fire (w : Workspace) (e : Event) : Ran :=
  let (fired, w) := w.dispatch e
  ended w.dispose none
    (if fired.isEmpty then
      [.note (note "fire" ("no rule matched " ++ e.item ++ " " ++ e.kind.word))]
    else firedLines fired)

/-- What a run that watches tells once its workspace has started. -/
def watchNotes (w : Workspace) : List Note :=
  (if w.isWatching then []
    else [note "watch" "watcher is not running, rules will not reload"]) ++
  [note "watch" (w.phase.label ++ " - press Ctrl+C to stop")]

def beginWatch (w : Workspace) : Workspace := w.tell (watchNotes w)

def endWatch (w : Workspace) : Workspace := (w.tell [note "watch" "shutting down..."]).dispose

/-- Runs a command to its end; `watch` is ended as soon as it has begun. -/
def perform (w : Workspace) : CommandLine.Command → Ran
  | .compile => compile w
  | .list => list w
  | .fire item state previous kind => fire w (Event.ofLine item state previous kind)
  | .watch => ended (endWatch (beginWatch w)) none []

def run (s : Surroundings) (d : Disk) (settings : CommandLine.Settings) : Ran :=
  match start s d settings (settings.command == .watch) with
  | .failed x => x
  | .ready w => perform w settings.command

/-- The first line of a message. -/
def firstLine (s : String) : String := .ofList (s.toList.takeWhile (· ≠ '\n'))

/-- The last line of a run that fails. -/
def failureLine (e : ProgramError) : Output := .line ("error: " ++ firstLine e.message)

end Program

end LiveRules
