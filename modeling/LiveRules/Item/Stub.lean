import LiveRules.Digest.Content
import LiveRules.Naming
import LiveRules.Artifact
import LiveRules.Toml.Writer

/-!
Stubs: generated sources that declare registered items, one for each. The unit of an item is named
after it with a mark in front, in the namespace of the items.
-/

namespace LiveRules.Stub

/-- Stands in front of the names of generated units. -/
def mark : String := "_"

def unitName (item : String) : String := mark ++ item

def fileName (item : String) : String := unitName item ++ "." ++ Naming.sourceExtension

def identifier (base item : String) : String := base ++ "." ++ unitName item

def line (key value : String) : String := key ++ " = " ++ value ++ "\n"

/-- The source that declares an item. -/
def text (base : String) (item : Item) : String :=
  "# generated from entity `" ++ item.name ++ "`, do not edit\n" ++
    line "package" (Toml.writeText base) ++
    line "name" (Toml.writeText (unitName item.name)) ++
    line "kind" (Toml.writeText UnitKind.item.word) ++
    line "constructor" "false" ++
    "\n[item]\n" ++
    line "name" (Toml.writeText item.name) ++
    line "type" (Toml.writeText item.type) ++
    (match item.label with
      | some label => line "label" (Toml.writeText label)
      | none => "")

end LiveRules.Stub
