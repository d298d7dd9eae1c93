import LiveRules.Pack

/-!
The registry of items, under their names in order, and the events that tell about its changes.
-/

namespace LiveRules

inductive RegistryEvent where
  | added (item : Item)
  | updated (item : Item)
  | removed (name : String)
  deriving DecidableEq

def RegistryEvent.name : RegistryEvent → String
  | .added item | .updated item => item.name
  | .removed name => name

structure Registry where
  /-- The items under their names, the names increasing. -/
  entries : List (String × Item) := []
  deriving DecidableEq

namespace Registry

/-- Of two items with one name the later counts. -/
def ofItems (items : List Item) : Registry := ⟨Pack.keyed (items.map fun i => (i.name, i))⟩

def items (r : Registry) : List Item := r.entries.map (·.2)

def get? (r : Registry) (name : String) : Option Item := r.entries.lookup name

def upsert (r : Registry) (item : Item) : RegistryEvent × Registry :=
  (if (r.get? item.name).isSome then .updated item else .added item,
    ⟨Pack.insert item.name item r.entries⟩)

def remove (r : Registry) (name : String) : Option RegistryEvent × Registry :=
  if (r.get? name).isSome then
    (some (.removed name), ⟨r.entries.filter fun x => x.1 ≠ name⟩)
  else (none, r)

end Registry

end LiveRules
