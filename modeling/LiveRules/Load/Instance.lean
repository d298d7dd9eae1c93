import LiveRules.ClassPath

/-!
Instances of units. An instance has the rule methods of its unit and of the units up its chain of
bases; of two methods with one name the nearer one counts.

Bases are looked up one after the other. What they are looked up in may remember what it has found:
it is a state, and a look-up gives an answer and the state after it.
-/

namespace LiveRules

/-- A way to look up units by name in a state, and how many steps a walk up the bases may take. -/
structure Finder (σ : Type) where
  resolve : String → σ → Except LoadError Artifact × σ
  bound : σ → Nat

/-- A look-up that remembers nothing. -/
def Finder.plain (resolve : String → Except LoadError Artifact) (bound : Nat) : Finder Unit :=
  ⟨fun name s => (resolve name, s), fun _ => bound⟩

structure Instance where
  unit : Artifact
  methods : List Method
  deriving DecidableEq

namespace Instance

/-- Adds the methods whose names are new. -/
def addMethods (own more : List Method) : List Method :=
  more.foldl (fun ms m => if ms.any fun x => x.name == m.name then ms else ms ++ [m]) own

def methodsOf (units : List Artifact) : List Method :=
  units.foldl (fun ms a => addMethods ms a.methods) []

def method? (i : Instance) (name : String) : Option Method :=
  i.methods.find? fun m => m.name == name

/-- The units from a unit up its chain of bases. `steps` bounds the length of the chain. -/
def climb {σ : Type} (resolve : String → σ → Except LoadError Artifact × σ) :
    Nat → List String → Artifact → σ → Except LoadError (List Artifact) × σ
  | 0, _, a, s => (.error (.cycle a.identifier), s)
  | steps + 1, seen, a, s =>
    if seen.contains a.identifier then (.error (.cycle a.identifier), s)
    else
      match a.extends? with
      | none => (.ok [a], s)
      | some base =>
        match resolve base s with
        | (.error _, s) => (.error (.unresolvedBase a.identifier base), s)
        | (.ok next, s) =>
          match climb resolve steps (a.identifier :: seen) next s with
          | (.error e, s) => (.error e, s)
          | (.ok above, s) => (.ok (a :: above), s)

end Instance

/-- The instance of a unit, unless the unit is abstract or has no constructor. -/
def Finder.create {σ : Type} (f : Finder σ) (a : Artifact) (s : σ) :
    Except LoadError Instance × σ :=
  if a.isAbstract then (.error (.isAbstract a.identifier), s)
  else if !a.constructible then (.error (.noConstructor a.identifier), s)
  else
    match Instance.climb f.resolve (f.bound s) [] a s with
    | (.error e, s) => (.error e, s)
    | (.ok units, s) => (.ok ⟨a, Instance.methodsOf units⟩, s)

namespace ClassPath

/-- The look-up of a class path that remembers nothing. -/
def finder (d : Disk) (cp : ClassPath) : Finder Unit :=
  .plain (cp.resolve d) (cp.unitBound d + 2)

/-- The instance of a unit, with its bases from a class path. -/
def instantiate (d : Disk) (cp : ClassPath) (a : Artifact) : Except LoadError Instance :=
  ((cp.finder d).create a ()).1

end ClassPath

end LiveRules
