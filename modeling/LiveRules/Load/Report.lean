import LiveRules.ClassPath.Session

/-!
Loading a folder of compiled units. The identifier of each is read off its path, the unit is
resolved over a class path and, if wanted, instantiated. What fails is recorded for that unit
alone. All units of a folder share one class path, which remembers what was resolved for the units
before.
-/

namespace LiveRules

inductive Omission where
  | isAbstract
  | noConstructor
  deriving DecidableEq

structure LoadReport where
  types : List Artifact := []
  instances : List Instance := []
  skipped : List (String × Omission) := []
  failed : List (Path × LoadError) := []
  notes : List Note := []
  deriving DecidableEq

namespace LoadReport

def append (a b : LoadReport) : LoadReport :=
  ⟨a.types ++ b.types, a.instances ++ b.instances, a.skipped ++ b.skipped, a.failed ++ b.failed,
    a.notes ++ b.notes⟩

def hasFailures (r : LoadReport) : Bool := !r.failed.isEmpty

end LoadReport

namespace Finder

variable {σ : Type}

/-- The unit whose identifier is read off a path. -/
def unitAt (f : Finder σ) (base : String) (path : Path) (s : σ) : Except LoadError Artifact × σ :=
  match Naming.derive path base with
  | .error e => (.error (.naming e), s)
  | .ok identifier => f.resolve identifier s

/-- What becomes of a unit once it is resolved. -/
def loadUnit (f : Finder σ) (path : Path) (a : Artifact) (s : σ) : LoadReport × σ :=
  if a.isAbstract then
    ({ skipped := [(a.identifier, .isAbstract)]
       notes := [quietNote "load" ("skipping abstract " ++ a.identifier)] }, s)
  else if !a.constructible then
    ({ skipped := [(a.identifier, .noConstructor)]
       notes :=
        [quietNote "load" ("skipping " ++ a.identifier ++ ": no zero-argument constructor")] }, s)
  else
    match f.create a s with
    | (.ok i, s) => ({ instances := [i] }, s)
    | (.error e, s) =>
      ({ failed := [(path, e)]
         notes := [note "load" ("cannot instantiate " ++ a.identifier ++ ": " ++ e.message)] }, s)

def loadPath (f : Finder σ) (base : String) (instantiates : Bool) (path : Path) (s : σ) :
    LoadReport × σ :=
  match f.unitAt base path s with
  | (.error e, s) =>
    ({ failed := [(path, e)]
       notes := [note "load" ("failed to load " ++ path.text ++ ": " ++ e.message)] }, s)
  | (.ok a, s) =>
    let resolved : LoadReport :=
      { types := [a], notes := [quietNote "load" ("resolved " ++ a.identifier)] }
    if instantiates then
      let (r, s) := f.loadUnit path a s
      (resolved.append r, s)
    else (resolved, s)

/-- Loads one path after the other. -/
def loadPaths (f : Finder σ) (base : String) (instantiates : Bool) :
    List Path → σ → LoadReport × σ
  | [], s => ({}, s)
  | path :: rest, s =>
    let (r, s) := f.loadPath base instantiates path s
    let (more, s) := loadPaths f base instantiates rest s
    (r.append more, s)

end Finder

/-- Loads every unit below a folder, in the order of the paths, over a class path that is new. -/
def LoadReport.ofFolder (d : Disk) (cp : ClassPath) (folder : Path) (base : String)
    (instantiates : Bool) : LoadReport :=
  ((ClassPath.Session.finder d).loadPaths base instantiates
    (d.collect folder Naming.artifactExtension) { entries := cp }).1

end LiveRules
