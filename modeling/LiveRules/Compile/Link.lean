import LiveRules.ClassPath
import LiveRules.Compile.Check

/-!
Linking a batch of checked sources. Identifiers are unique within a batch; bases are units of the
batch or of the class path, and so are the items that rules refer to. Of two units of a batch that
declare one item the first counts.
-/

namespace LiveRules.Link

/-- The paths of the units before one, the last one under each identifier in front. -/
def duplicates : List CheckedUnit → List CheckedUnit → List Diagnostic
  | _, [] => []
  | earlier, p :: rest =>
    (match earlier.find? fun q => q.unit.identifier == p.unit.identifier with
      | some first =>
        [⟨p.path, 1, "duplicate unit `" ++ p.unit.identifier ++ "` (also declared in " ++
          first.path.text ++ ")"⟩]
      | none => []) ++ duplicates (p :: earlier) rest

/-- The items that a batch declares, with the identifiers of their units. -/
def declaredItems (batch : List CheckedUnit) : List (String × String) :=
  batch.filterMap fun p => p.unit.item.map fun item => (item.name, p.unit.identifier)

/-- What a unit of a batch may refer to. -/
structure Scope where
  units : List String
  batchItems : List (String × String)
  hasUnit : String → Bool
  findItem? : String → Option String

def Scope.of (d : Disk) (cp : ClassPath) (batch : List CheckedUnit) : Scope :=
  let items := cp.items d
  { units := batch.map fun p => p.unit.identifier
    batchItems := declaredItems batch
    hasUnit := cp.contains d
    findItem? := fun item => items.lookup item }

def Scope.isBase (s : Scope) (identifier : String) : Bool :=
  s.units.contains identifier || s.hasUnit identifier

def Scope.itemClass? (s : Scope) (item : String) : Option String :=
  (s.batchItems.lookup item).or (s.findItem? item)

def baseProblems (s : Scope) (p : CheckedUnit) : List Diagnostic :=
  match p.unit.extends? with
  | some base =>
    if s.isBase base then []
    else [⟨p.path, p.baseLine, "cannot resolve base unit `" ++ base ++ "`"⟩]
  | none => []

def itemProblems (s : Scope) (p : CheckedUnit) : List Diagnostic :=
  (p.unit.methods.zip p.itemLines).filterMap fun (m, line) =>
    match s.itemClass? m.item with
    | some _ => none
    | none => some ⟨p.path, line, "unknown item `" ++ m.item ++ "`"⟩

def problems (s : Scope) (batch : List CheckedUnit) : List Diagnostic :=
  duplicates [] batch ++ batch.flatMap fun p => baseProblems s p ++ itemProblems s p

/-- A unit whose methods know the units of their items. -/
def linked (s : Scope) (p : CheckedUnit) : Artifact :=
  { p.unit with
    methods := p.unit.methods.map fun m => { m with itemClass := s.itemClass? m.item } }

/-- Whether linking looks for an item on the class path. -/
def asksClassPath (s : Scope) (batch : List CheckedUnit) : Bool :=
  batch.any fun p => p.unit.methods.any fun m => (s.batchItems.lookup m.item).isNone

end LiveRules.Link
