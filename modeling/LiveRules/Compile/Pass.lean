import LiveRules.Compile.Tool
import LiveRules.Config

/-!
Compilation passes over the folders of a configuration: the stubs that have no unit yet, and all
rules anew.
-/

namespace LiveRules

namespace Compiled

/-- Tells something before a compilation. -/
def after (notes : List Note) (x : Compiled) : Compiled := { x with notes := notes ++ x.notes }

end Compiled

namespace Pass

def outcomeNotes : Except CompileError Outcome → List Note
  | .error _ => []
  | .ok o =>
    if o.succeeded then
      [quietNote "compile" ("wrote " ++ toString o.written.length ++ " artifact(s)")]
    else
      (o.diagnostics.map fun x => note "error" x.text) ++
        [note "compile" ("compilation failed with " ++ toString o.diagnostics.length ++
          " error(s)")]

/-- Compiles a batch and tells about it. Nothing is done for an empty batch. -/
def compile (tool : Tool) (d : Disk) (sources : List Source) (cp : ClassPath) (root : Path) :
    Compiled :=
  if sources.isEmpty then ⟨.ok {}, d, []⟩
  else
    let x := tool.run d sources cp root
    let begun := "compiling " ++ toString sources.length ++ " source(s) with " ++ tool.name
    { x with notes :=
        [note "compile" begun,
          quietNote "compile" ("class path: " ++ cp.text)] ++
        x.notes ++ outcomeNotes x.outcome }

/-- The sources of a folder for which no unit lies beside them. -/
def stale (d : Disk) (folder : Path) : List Source :=
  let compiled := (d.listed folder Naming.artifactExtension).map Path.stem
  (Source.scanFolder d folder).filter fun s => !compiled.contains s.name

def compileStale (tool : Tool) (d : Disk) (folder : Path) (cp : ClassPath) (root : Path) :
    Compiled :=
  let sources := stale d folder
  if sources.isEmpty then
    ⟨.ok {}, d, [quietNote "compile" ("nothing stale in " ++ folder.text)]⟩
  else compile tool d sources cp root

/-- A class path with what is told about it. -/
abbrev Assembled := ClassPath × List Note

def addRuntime (d : Disk) (c : Config) (x : Assembled) : Assembled :=
  match Pack.read d c.runtimePack with
  | .ok pack => (x.1 ++ [.pack c.runtimePack pack], x.2)
  | .error e =>
    (x.1 ++ [.pack c.runtimePack Pack.runtime],
      x.2 ++ [quietNote "compile"
        ("runtime pack unavailable (" ++ e.message ++ "), using built-in copy")])

def addItems (d : Disk) (c : Config) (x : Assembled) : Assembled :=
  if !d.isThere c.itemsPack then
    (x.1, x.2 ++ [quietNote "compile" ("no items pack at " ++ c.itemsPack.text)])
  else
    match Pack.read d c.itemsPack with
    | .ok pack => (x.1 ++ [.pack c.itemsPack pack], x.2)
    | .error e => (x.1, x.2 ++ [note "error" ("ignoring items pack: " ++ e.fullText)])

def addExtlib (d : Disk) (x : Assembled) (path : Path) : Assembled :=
  match Pack.read d path with
  | .ok pack => (x.1 ++ [.pack path pack], x.2 ++ [quietNote "compile" ("ext lib " ++ path.text)])
  | .error e => (x.1, x.2 ++ [note "error" ("ignoring ext lib: " ++ e.fullText)])

def addExtlibs (d : Disk) (c : Config) (x : Assembled) : Assembled :=
  (d.listed c.folders.extlib Naming.packExtension).foldl (addExtlib d) x

/-- What stubs are compiled against. -/
def itemsPath (d : Disk) (c : Config) : Assembled := addRuntime d c ([], [])

/-- What rules are compiled against. -/
def rulesPath (d : Disk) (c : Config) : Assembled :=
  addExtlibs d c (addRuntime d c (addItems d c ([], [])))

/-- What compiled rules are loaded over: their own folder comes first. -/
def loaderPath (d : Disk) (c : Config) : Assembled :=
  addExtlibs d c (addRuntime d c (addItems d c ([.folder c.folders.ruleClasses], [])))

/-- Compiles the stubs that have no unit. -/
def compileItems (tool : Tool) (c : Config) (d : Disk) : Compiled :=
  let cp := itemsPath d c
  (compileStale tool d c.stubFolder cp.1 c.folders.items).after cp.2

def removeAll (d : Disk) : List Path → Except CompileError Unit × Disk
  | [] => (.ok (), d)
  | path :: rest =>
    match d.removeFile path with
    | (.error e, d) => (.error (.output path e), d)
    | (.ok _, d) => removeAll d rest

/-- Removes every unit below a folder and gives their number. -/
def removeUnits (d : Disk) (folder : Path) : Except CompileError Nat × Disk :=
  let files := d.collect folder Naming.artifactExtension
  match removeAll d files with
  | (.error e, d) => (.error e, d)
  | (.ok _, d) => (.ok files.length, d)

/-- Removes the units of all rules and compiles the rules anew. -/
def compileRules (tool : Tool) (c : Config) (d : Disk) : Compiled :=
  match removeUnits d c.folders.ruleClasses with
  | (.error e, d) => ⟨.error e, d, []⟩
  | (.ok n, d) =>
    let removed := quietNote "compile" ("removed " ++ toString n ++ " rule artifact(s)")
    let sources := Source.scanTree d c.folders.rules
    if sources.isEmpty then
      ⟨.ok {}, d, [removed,
        note "compile" ("no rule sources in " ++ c.folders.rules.text ++ ", skipping")]⟩
    else
      let cp := rulesPath d c
      (compile tool d sources cp.1 c.folders.ruleClasses).after (removed :: cp.2)

end Pass

end LiveRules
