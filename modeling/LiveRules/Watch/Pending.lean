import LiveRules.Watch.Change

/-!
Changes that wait for quiet. A burst of changes is taken as a whole, once no change has come for as
long as the window. Of each path the burst has one change: a deletion undoes what was there before
it, and otherwise the first change counts.
-/

namespace LiveRules

/-- A point of time, in milliseconds. -/
abbrev Time := Nat

structure Pending where
  window : Nat
  /-- One change for each path. -/
  changes : List Change := []
  /-- When the last change came. -/
  last : Option Time := none
  deriving DecidableEq

namespace Pending

/-- What two changes of one path come to. -/
def combine (old new : ChangeKind) : ChangeKind :=
  match old, new with
  | .deleted, new => new
  | _, .deleted => .deleted
  | old, _ => old

def find? (p : Path) (changes : List Change) : Option Change :=
  changes.find? fun x => x.path.same p

/-- Enters a change beside the others; a path keeps the spelling that it came with first. -/
def enter (x : Change) : List Change → List Change
  | [] => [x]
  | y :: rest =>
    if y.path.same x.path then ⟨combine y.kind x.kind, y.path⟩ :: rest else y :: enter x rest

def addNotes (x : Change) (changes : List Change) : List Note :=
  match find? x.path changes with
  | some old =>
    if old.kind = .deleted ∧ x.kind ≠ .deleted then
      [quietNote "watch" ("restored: " ++ x.path.text)]
    else []
  | none => []

def add (now : Time) (p : Pending) (x : Change) : Pending × List Note :=
  ({ p with changes := enter x p.changes, last := some now }, addNotes x p.changes)

def addAll (now : Time) (p : Pending) : List Change → Pending × List Note
  | [] => (p, [])
  | x :: rest =>
    let (p, first) := p.add now x
    let (p, others) := addAll now p rest
    (p, first ++ others)

def isEmpty (p : Pending) : Bool := p.changes.isEmpty

/-- When the burst can be taken, if there is one. -/
def deadline? (p : Pending) : Option Time :=
  if p.isEmpty then none else p.last.map (· + p.window)

def sorted (changes : List Change) : List Change := changes.mergeSort fun x y => x.path.le y.path

/-- Takes the burst, sorted by path, once the window has passed. -/
def take? (now : Time) (p : Pending) : Option (List Change) × Pending :=
  match p.deadline? with
  | none => (none, p)
  | some deadline =>
    if now < deadline then (none, p)
    else (some (sorted p.changes), { p with changes := [], last := none })

end Pending

end LiveRules
