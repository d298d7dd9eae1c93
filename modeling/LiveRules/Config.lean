import LiveRules.Artifact
import LiveRules.Naming
import LiveRules.Pack

/-!
Configurations: the folders, the namespaces of rules and items, watching, the compiler and the
items that are registered from the start.
-/

namespace LiveRules

structure Folders where
  workingDir : Path := ⟨"."⟩
  items : Path := ⟨"items"⟩
  rules : Path := ⟨"rules"⟩
  ruleClasses : Path := ⟨"rule-classes"⟩
  extlib : Path := ⟨"ext-lib"⟩
  jar : Path := ⟨"jar"⟩
  deriving DecidableEq, Inhabited

structure Config where
  /-- The file that was read; empty when there is none. -/
  file : Path := ⟨""⟩
  /-- The folder that relative paths start from. -/
  root : Path := ⟨""⟩
  folders : Folders := {}
  rulesNamespace : String := "org.hotrules.rules.user"
  itemsNamespace : String := "org.hotrules.items"
  watches : Bool := true
  /-- Quiet time before a burst of changes leads to a reload, in milliseconds. -/
  debounce : Nat := 300
  /-- The external compiler with its arguments; empty for the built-in one. -/
  command : List String := []
  items : List Item := []
  deriving DecidableEq, Inhabited

namespace Config

def fileName : String := "hotrules.toml"

def stubFolder (c : Config) : Path := Naming.folder c.folders.items c.itemsNamespace
def itemsPack (c : Config) : Path := c.folders.jar.join ⟨Pack.itemsPackName⟩
def runtimePack (c : Config) : Path := c.folders.jar.join ⟨Pack.runtimePackName⟩

def namespaceProblems (key base : String) : List String :=
  if Naming.isNamespace base then []
  else ["`" ++ key ++ "`: `" ++ base ++ "` is not a dot-separated namespace"]

def emptyProblems (key : String) (p : Path) : List String :=
  if p.isEmpty then ["`" ++ key ++ "` must not be empty"] else []

def itemProblems : List String → List Item → List String
  | _, [] => []
  | seen, item :: rest =>
    (if Naming.isItemName item.name then []
      else ["entity `" ++ item.name ++ "`: not a valid item name"]) ++
    (if seen.contains item.name then ["entity `" ++ item.name ++ "` declared twice"] else []) ++
    itemProblems (item.name :: seen) rest

/-- What is wrong with a configuration, paths being as they are written. -/
def problems (c : Config) : List String :=
  namespaceProblems "namespace.rules" c.rulesNamespace ++
  namespaceProblems "namespace.items" c.itemsNamespace ++
  (if c.rulesNamespace = c.itemsNamespace then
    ["`namespace.rules` and `namespace.items` must differ"] else []) ++
  emptyProblems "paths.items" c.folders.items ++
  emptyProblems "paths.rules" c.folders.rules ++
  emptyProblems "paths.rule_classes" c.folders.ruleClasses ++
  emptyProblems "paths.extlib" c.folders.extlib ++
  emptyProblems "paths.jar" c.folders.jar ++
  (if c.folders.rules.same c.folders.ruleClasses then
    ["`paths.rules` and `paths.rule_classes` must differ"] else []) ++
  itemProblems [] c.items

/-- All folders seen from the working directory, and that from the root. -/
def resolved (home : String) (c : Config) : Config :=
  let base := Path.resolve home c.folders.workingDir c.root
  { c with folders := {
      workingDir := base
      items := Path.resolve home c.folders.items base
      rules := Path.resolve home c.folders.rules base
      ruleClasses := Path.resolve home c.folders.ruleClasses base
      extlib := Path.resolve home c.folders.extlib base
      jar := Path.resolve home c.folders.jar base } }

/-- The configuration without a file, at a root. -/
def forRoot (home : String) (root : Path) : Config := resolved home { root }

end Config

inductive ConfigError where
  | io (path : Path) (cause : OsError)
  | notFitting
  | invalid (problems : List String)
  deriving DecidableEq

def ConfigError.message : ConfigError → String
  | .io path _ => "IO error when reading `" ++ path.text ++ "`"
  | .notFitting => "Config file parsing error"
  | .invalid problems => "Config validation error:\n" ++ Text.joinedStrings "\n" problems

end LiveRules
