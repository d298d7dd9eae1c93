import LiveRules.Config
import LiveRules.Console
import LiveRules.Toml.Reader
import LiveRules.Toml.Shape

/-!
Reading configurations. Fields that nobody knows are left out, and their names are kept for a
warning. A section may be an array that lists its fields in order.
-/

namespace LiveRules.Config

open Toml

/-- A configuration as far as it is read, with the fields that were left out. -/
structure Draft where
  config : Config := {}
  ignored : List String := []

def Draft.ignore (section? : Option String) (x : Draft) (key : Key) : Fitted Draft :=
  let name :=
    match section? with
    | some s => s ++ "." ++ key.name
    | none => key.name
  .ok { x with ignored := x.ignored ++ [name] }

def toPath (node : Node) : Fitted Path := do return ⟨← node.toText⟩

def toCount : Node → Fitted Nat
  | .integer mark n =>
    if 0 ≤ n then .ok n.toNat else .error ⟨"invalid value", some mark⟩
  | node => misfit node "u64"

def folderField (x : Draft) (name : String) (node : Node) : Fitted Draft := do
  let p ← toPath node
  let f := x.config.folders
  let folders : Folders :=
    if name = "working_dir" then { f with workingDir := p }
    else if name = "items" then { f with items := p }
    else if name = "rules" then { f with rules := p }
    else if name = "rule_classes" then { f with ruleClasses := p }
    else if name = "extlib" then { f with extlib := p }
    else { f with jar := p }
  return { x with config.folders := folders }

def namespaceField (x : Draft) (name : String) (node : Node) : Fitted Draft := do
  let s ← node.toText
  if name = "rules" then return { x with config.rulesNamespace := s }
  else return { x with config.itemsNamespace := s }

def watchField (x : Draft) (name : String) (node : Node) : Fitted Draft :=
  if name = "enabled" then do return { x with config.watches := ← node.toBool }
  else do return { x with config.debounce := ← toCount node }

def toolchainField (x : Draft) (_ : String) (node : Node) : Fitted Draft := do
  return { x with config.command := ← node.toList Node.toText }

def toSection (title : String) (names : List String) (name : String)
    (field : Draft → String → Node → Fitted Draft) (x : Draft) (node : Node) : Fitted Draft :=
  node.toRecord title names 0 field (Draft.ignore (some name)) x

/-- The type of an item that names none. -/
def defaultType : String := "String"

structure ItemDraft where
  name : Option String := none
  type : String := defaultType
  label : Option String := none
  ignored : List String := []

def ItemDraft.field (x : ItemDraft) (name : String) (node : Node) : Fitted ItemDraft :=
  if name = "name" then do return { x with name := some (← node.toText) }
  else if name = "type" then do return { x with type := ← node.toText }
  else do return { x with label := some (← node.toText) }

/-- The item at a position, with the fields that are left out. -/
def toItem (index : Nat) (node : Node) : Fitted (Item × List String) := do
  let x ← node.toRecord "EntityConfig" ["name", "type", "label"] 1 ItemDraft.field
    (fun x key => .ok { x with ignored := x.ignored ++ [key.name] }) {}
  return ({ name := ← needed "name" x.name, type := x.type, label := x.label },
    x.ignored.map fun name => "entity." ++ toString index ++ "." ++ name)

def addItems : Nat → List Node → Draft → Fitted Draft
  | _, [], x => .ok x
  | index, node :: rest, x => do
    let (item, ignored) ← toItem index node
    addItems (index + 1) rest
      { config := { x.config with items := x.config.items ++ [item] }
        ignored := x.ignored ++ ignored }

def field (x : Draft) (name : String) (node : Node) : Fitted Draft :=
  if name = "paths" then
    toSection "PathsConfig"
      ["working_dir", "items", "rules", "rule_classes", "extlib", "jar"] name folderField x node
  else if name = "namespace" then
    toSection "NamespaceConfig" ["rules", "items"] name namespaceField x node
  else if name = "watch" then
    toSection "WatchConfig" ["enabled", "debounce_ms"] name watchField x node
  else if name = "toolchain" then
    toSection "ToolchainConfig" ["command"] name toolchainField x node
  else
    match node with
    | .array _ nodes | .tables _ nodes => addItems 0 nodes x
    | node => misfit node "a sequence"

def sections : List String := ["paths", "namespace", "watch", "toolchain", "entity"]

/-- The configuration that a text holds, and the fields that are left out. -/
def ofText? (text : String) : Option (Config × List String) :=
  match document text.toList with
  | .error _ => none
  | .ok entries =>
    match (Members.named entries).read sections field (Draft.ignore none) {} with
    | .ok x => some (x.config, x.ignored)
    | .error _ => none

/-- The nearest file of a name, from a folder upwards. An absolute name stands for itself. -/
def find? (d : Disk) (folder name : Path) : Option Path :=
  if name.isAbsolute then if d.isThere name then some name else none
  else (folder.ancestors.map fun above => above.join name).find? d.isThere

structure Loaded where
  result : Except ConfigError Config
  notes : List Note := []

def ofFile (d : Disk) (path : Path) : Loaded :=
  match d.readText path with
  | .error e => ⟨.error (.io path e), []⟩
  | .ok text =>
    match ofText? text with
    | none => ⟨.error .notFitting, []⟩
    | some (config, ignored) =>
      { result := .ok config
        notes := if ignored.isEmpty then [] else [note "warning" ("unknown fields in " ++
          path.fileName?.getD path.text ++ ", ignoring: " ++ Text.joinedStrings ", " ignored)] }

/-- The configuration without its last check, in the folder where the program runs. -/
def found (d : Disk) (folder name : Path) : Loaded :=
  match find? d folder name with
  | none =>
    { result := .ok { root := folder }
      notes := [note "config" ("no " ++ name.text ++ " found, using defaults")] }
  | some path =>
    let read := ofFile d path
    { read with result := read.result.map fun c =>
        { c with root := path.parent?.getD folder, file := path } }

/-- Finds, reads, checks and resolves a configuration. -/
def load (d : Disk) (home : String) (folder name : Path) (workingDir : Option Path) : Loaded :=
  let read := found d folder name
  { read with result := read.result.bind fun c =>
      let c := { c with folders.workingDir := workingDir.getD c.folders.workingDir }
      match c.problems with
      | [] => .ok (c.resolved home)
      | problems => .error (.invalid problems) }

end LiveRules.Config
