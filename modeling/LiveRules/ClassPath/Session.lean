import LiveRules.Load.Instance

/-!
A class path in use over some time. Units that were resolved once stay as they were, and so does
the index of items once it was asked for; a new entry forgets both.
-/

namespace LiveRules.ClassPath

structure Session where
  entries : ClassPath := []
  resolved : List (String × Artifact) := []
  items? : Option (List (String × String)) := none

namespace Session

def push (s : Session) (entry : Entry) : Session := { entries := s.entries ++ [entry] }

def pushPack (s : Session) (d : Disk) (path : Path) : Except PackError Session :=
  match Pack.read d path with
  | .ok pack => .ok (s.push (.pack path pack))
  | .error e => .error e

/-- A unit as it was resolved before, or as it is found now. -/
def lookup (s : Session) (d : Disk) (identifier : String) : Except LoadError Artifact :=
  match s.resolved.lookup identifier with
  | some a => .ok a
  | none => s.entries.resolve d identifier

def keep (s : Session) (identifier : String) (a : Artifact) : Session :=
  if (s.resolved.lookup identifier).isSome then s
  else { s with resolved := (identifier, a) :: s.resolved }

def resolve (s : Session) (d : Disk) (identifier : String) : Except LoadError Artifact × Session :=
  match s.lookup d identifier with
  | .ok a => (.ok a, s.keep identifier a)
  | .error e => (.error e, s)

/-- Units as they were resolved before, or as they are found now. -/
def finder (d : Disk) : Finder Session :=
  ⟨fun name s => s.resolve d name, fun s => s.entries.unitBound d + s.resolved.length + 2⟩

/-- The instance of a unit, its bases being resolved one after the other. -/
def create (s : Session) (d : Disk) (a : Artifact) : Except LoadError Instance × Session :=
  (finder d).create a s

def instantiate (s : Session) (d : Disk) (identifier : String) :
    Except LoadError Instance × Session :=
  match s.resolve d identifier with
  | (.error e, s) => (.error e, s)
  | (.ok a, s) => s.create d a

def findItem (s : Session) (d : Disk) (item : String) : Option String × Session :=
  let items := s.items?.getD (s.entries.items d)
  (items.lookup item, { s with items? := some items })

end Session

end LiveRules.ClassPath
