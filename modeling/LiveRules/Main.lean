import LiveRules.Console.Screen
import LiveRules.Program
import LiveRules.Watch.Poll
import Std.Time.DateTime.Timestamp

/-!
The program. It reads the folder tree that it is started in, lets a command work on that tree, shows
what the command tells and writes the changed files back. A command that watches goes on comparing
the tree with what it has read before.
-/

namespace LiveRules.Main

/-- How deep folders may lie in one another. -/
def depthLimit : Nat := 64

/-- How long a watching command waits between two looks at the tree, in milliseconds. -/
def pause : UInt32 := 100

/-- All that lies below a folder; files that cannot be read are left out. -/
def readFolder : Nat → Place → IO.FS.DirEntry → IO (List (Place × Entry))
  | 0, _, _ => return []
  | depth + 1, place, folder => do
    let mut found := []
    for child in ← folder.path.readDir do
      let below := place ++ [child.fileName]
      if ← child.path.isDir then
        found := found ++ (below, .folder) :: (← readFolder depth below child)
      else
        match ← (IO.FS.readBinFile child.path).toBaseIO with
        | .ok content => found := found ++ [(below, .file content false)]
        | .error _ => pure ()
    return found

/-- The folders on the way to a place, and that place. -/
def foldersTo (place : Place) : List (Place × Entry) :=
  (List.range place.length).map fun n => (place.take (n + 1), .folder)

def current : IO Place := do
  let folder ← IO.currentDir
  return (folder.toString.splitOn "/").filter fun name => !name.isEmpty

def readTree : IO (List (Place × Entry)) := do
  let place ← current
  return foldersTo place ++ (← readFolder depthLimit place ⟨← IO.currentDir, "."⟩)

def nameOf (place : Place) : String := "/" ++ "/".intercalate place

/-- Writes what differs from an earlier state of the tree. -/
def save (before after : List (Place × Entry)) : IO Unit := do
  for (place, e) in after do
    if Disk.lookup place before ≠ some e then
      match e with
      | .folder => IO.FS.createDirAll (nameOf place)
      | .file content _ => IO.FS.writeBinFile (nameOf place) content
  for (place, _) in before do
    if (Disk.lookup place after).isNone then IO.FS.removeFile (nameOf place)

def timeNow : IO String := do
  let now ← Std.Time.Timestamp.now
  return Screen.timeOfDay now.toSecondsSinceUnixEpoch.val.toNat

def display (isVerbose : Bool) (screen : Screen) (outputs : List Output) : IO Screen := do
  let (text, screen) := screen.drawAll (← timeNow) isVerbose outputs
  IO.print text
  (← IO.getStdout).flush
  return screen

/-- Looks at the tree again and lets the workspace follow its changes. -/
def follow (w : Workspace) : IO Workspace := do
  let now ← IO.monoMsNow
  let entries ← readTree
  let events := FileEvent.between w.disk.entries entries
  let w := { w with disk := { w.disk with entries }, journal := [] }
  let w := (events.foldl (Workspace.observe now) w).settle now
  save entries w.disk.entries
  return w

def watch (isVerbose : Bool) (before : List (Place × Entry)) (w : Workspace) : IO Unit := do
  let mut w := Program.beginWatch w
  save before w.disk.entries
  let mut screen ← display isVerbose {} (Workspace.outputs w.journal)
  repeat do
    IO.sleep pause
    w ← follow w
    screen ← display isVerbose screen (Workspace.outputs w.journal)

def finish (isVerbose : Bool) (before : List (Place × Entry)) (x : Ran) : IO UInt32 := do
  save before x.disk.entries
  let _ ← display isVerbose {} (x.outputs ++ (x.failure.map Program.failureLine).toList)
  return if x.failure.isSome then 1 else 0

def perform (settings : CommandLine.Settings) : IO UInt32 := do
  let entries ← readTree
  let place ← current
  let home := (← IO.getEnv "HOME").getD "/"
  let d : Disk := { entries, current := place }
  let watches := settings.command == .watch
  match Program.start ⟨home, ⟨nameOf place⟩⟩ d settings watches with
  | .failed x => finish settings.verbose entries x
  | .ready w =>
    if watches then
      watch settings.verbose entries w
      return 0
    else finish settings.verbose entries (Program.perform w settings.command)

def run (args : List String) : IO UInt32 := do
  match CommandLine.parse args with
  | .ok settings => perform settings
  | .error e =>
    IO.eprintln e.message
    return if e.isRequest then 0 else 2

end LiveRules.Main

def main (args : List String) : IO UInt32 := LiveRules.Main.run args
