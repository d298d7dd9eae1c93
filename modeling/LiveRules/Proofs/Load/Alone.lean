import LiveRules.Load.Report
import LiveRules.Proofs.Load.Sessions

/-!
Loading unit by unit. The units of a folder are loaded over one class path, which remembers what it
has resolved; but each gives what it would give over a class path of its own.
-/

namespace LiveRules

open Instance (Steady)

namespace LoadReport

/-- Several reports as one, field by field. -/
def concat (reports : List LoadReport) : LoadReport :=
  ⟨reports.flatMap (·.types), reports.flatMap (·.instances), reports.flatMap (·.skipped),
    reports.flatMap (·.failed), reports.flatMap (·.notes)⟩

@[simp] theorem concat_cons (r : LoadReport) (reports : List LoadReport) :
    concat (r :: reports) = r.append (concat reports) := rfl

@[simp] theorem append_nil (r : LoadReport) : r.append {} = r := by
  simp [append]

/-- The unit that a path leads to. -/
def resolveAt (d : Disk) (cp : ClassPath) (base : String) (path : Path) :
    Except LoadError Artifact :=
  match Naming.derive path base with
  | .error e => .error (.naming e)
  | .ok identifier => cp.resolve d identifier

/-- What becomes of a unit over a class path that remembers nothing. -/
def ofUnit (d : Disk) (cp : ClassPath) (path : Path) (a : Artifact) : LoadReport :=
  ((cp.finder d).loadUnit path a ()).1

/-- What a path gives over a class path that remembers nothing. -/
def ofPath (d : Disk) (cp : ClassPath) (base : String) (instantiates : Bool) (path : Path) :
    LoadReport :=
  ((cp.finder d).loadPath base instantiates path ()).1

theorem ofUnit_eq (d : Disk) (cp : ClassPath) (path : Path) (a : Artifact) : ofUnit d cp path a =
    if a.isAbstract then
      { skipped := [(a.identifier, .isAbstract)]
        notes := [quietNote "load" ("skipping abstract " ++ a.identifier)] }
    else if !a.constructible then
      { skipped := [(a.identifier, .noConstructor)]
        notes :=
          [quietNote "load" ("skipping " ++ a.identifier ++ ": no zero-argument constructor")] }
    else
      match cp.instantiate d a with
      | .ok i => { instances := [i] }
      | .error e =>
        { failed := [(path, e)]
          notes :=
            [note "load" ("cannot instantiate " ++ a.identifier ++ ": " ++ e.message)] } := by
  rw [ofUnit, Finder.loadUnit, ClassPath.instantiate]
  split
  · rfl
  split
  · rfl
  rcases (cp.finder d).create a () with ⟨r, s⟩
  cases r <;> rfl

theorem ofPath_eq (d : Disk) (cp : ClassPath) (base : String) (instantiates : Bool) (path : Path) :
    ofPath d cp base instantiates path =
      match resolveAt d cp base path with
      | .error e =>
        { failed := [(path, e)]
          notes := [note "load" ("failed to load " ++ path.text ++ ": " ++ e.message)] }
      | .ok a =>
        let resolved : LoadReport :=
          { types := [a], notes := [quietNote "load" ("resolved " ++ a.identifier)] }
        if instantiates then resolved.append (ofUnit d cp path a) else resolved := by
  have hunitAt : (cp.finder d).unitAt base path () = (resolveAt d cp base path, ()) := by
    rw [Finder.unitAt, resolveAt]
    cases Naming.derive path base <;> rfl
  rw [ofPath, Finder.loadPath, hunitAt]
  cases resolveAt d cp base path with
  | error e => rfl
  | ok a =>
    dsimp only
    split <;> rfl

end LoadReport

/-- The end of the walk says what comes of an instance. -/
theorem ClassPath.instantiate_of_ends {d : Disk} {cp : ClassPath} {a c : Artifact}
    {passed : List Artifact} {r : Except LoadError (List Artifact)} {names : List String}
    (habstract : a.isAbstract = false) (hconstructible : a.constructible = true)
    (hleads : Leads (found (cp.resolve d)) a passed c)
    (hdistinct : (passed.map (·.identifier)).Nodup)
    (hends : Ends (found (cp.resolve d)) passed c r names) :
    cp.instantiate d a = r.map fun units => ⟨a, Instance.methodsOf units⟩ := by
  have hplain : Steady (fun name (u : Unit) => (cp.resolve d name, u)) (cp.resolve d)
      fun _ => True := ⟨fun _ _ _ => rfl, fun _ _ _ => trivial⟩
  have hfew : passed.length < cp.unitBound d + 2 :=
    Session.length_lt_bound (s := { entries := cp }) hleads hdistinct
  rw [instantiate_eq, Instance.chain, hplain.climb_of_ends trivial hleads hdistinct hends hfew,
    habstract, hconstructible]
  cases r <;> rfl

namespace ClassPath.Session

variable {d : Disk} {cp : ClassPath} {base : String} {instantiates : Bool} {path : Path}
variable {a : Artifact} {s : Session}

/-- A class path in use that remembers nothing but what it would find. -/
structure Recalls (d : Disk) (cp : ClassPath) (s : Session) : Prop where
  entries : s.entries = cp
  lookup : s.lookup d = cp.resolve d

theorem recalls_new (d : Disk) (cp : ClassPath) : Recalls d cp { entries := cp } := ⟨rfl, rfl⟩

theorem Recalls.resolve (h : Recalls d cp s) (name : String) :
    (s.resolve d name).1 = cp.resolve d name ∧ Recalls d cp (s.resolve d name).2 := by
  have hsteady := s.steady d
  obtain ⟨hentries, hlookup⟩ := hsteady.keep name s ⟨rfl, rfl⟩
  exact ⟨(hsteady.answer name s ⟨rfl, rfl⟩).trans (by rw [h.lookup]),
    hentries.trans h.entries, hlookup.trans h.lookup⟩

/-- An instance does not depend on what is remembered: neither the look-ups do, nor does it matter
by how much the walk may be longer than it is. -/
theorem Recalls.create (h : Recalls d cp s) (a : Artifact) :
    (s.create d a).1 = cp.instantiate d a ∧ Recalls d cp (s.create d a).2 := by
  by_cases habstract : a.isAbstract = true
  · simp [Session.create, Finder.create, instantiate_eq, habstract, h]
  rw [Bool.not_eq_true] at habstract
  by_cases hconstructible : a.constructible = true
  · obtain ⟨passed, c, r, names, hleads, hdistinct, hends⟩ := s.exists_ends d a
    obtain ⟨hentries, hlookup⟩ := (s.steady d).after ⟨rfl, rfl⟩
      (passed.filterMap (·.extends?) ++ names)
    rw [create_of_ends habstract hconstructible hleads hdistinct hends]
    -- the same walk, over the class path that remembers nothing
    rw [h.lookup] at hleads hends
    rw [instantiate_of_ends habstract hconstructible hleads hdistinct hends]
    exact ⟨rfl, hentries.trans h.entries, hlookup.trans h.lookup⟩
  · rw [Bool.not_eq_true] at hconstructible
    simp [Session.create, Finder.create, instantiate_eq, habstract, hconstructible, h]

theorem Recalls.loadUnit (h : Recalls d cp s) (path : Path) (a : Artifact) :
    ((finder d).loadUnit path a s).1 = LoadReport.ofUnit d cp path a ∧
      Recalls d cp ((finder d).loadUnit path a s).2 := by
  obtain ⟨hcreate, hkeeps⟩ := h.create a
  rw [Session.create] at hcreate hkeeps
  rw [Finder.loadUnit, LoadReport.ofUnit_eq]
  split
  · exact ⟨rfl, h⟩
  split
  · exact ⟨rfl, h⟩
  rw [← hcreate]
  rcases hx : (finder d).create a s with ⟨r, t⟩
  rw [hx] at hkeeps
  cases r <;> exact ⟨rfl, hkeeps⟩

theorem Recalls.loadPath (h : Recalls d cp s) (base : String) (instantiates : Bool) (path : Path) :
    ((finder d).loadPath base instantiates path s).1 =
        LoadReport.ofPath d cp base instantiates path ∧
      Recalls d cp ((finder d).loadPath base instantiates path s).2 := by
  have hunitAt : ((finder d).unitAt base path s).1 = LoadReport.resolveAt d cp base path ∧
      Recalls d cp ((finder d).unitAt base path s).2 := by
    rw [Finder.unitAt, LoadReport.resolveAt]
    cases Naming.derive path base with
    | error e => exact ⟨rfl, h⟩
    | ok identifier => exact h.resolve identifier
  obtain ⟨hresolve, hkeeps⟩ := hunitAt
  rw [Finder.loadPath, LoadReport.ofPath_eq, ← hresolve]
  rcases hx : (finder d).unitAt base path s with ⟨r, t⟩
  rw [hx] at hkeeps
  cases r with
  | error e => exact ⟨rfl, hkeeps⟩
  | ok a =>
    cases instantiates with
    | false => exact ⟨rfl, hkeeps⟩
    | true =>
      obtain ⟨hunit, hkept⟩ := Recalls.loadUnit hkeeps path a
      dsimp only
      rw [if_pos rfl, if_pos rfl, ← hunit]
      exact ⟨rfl, hkept⟩

/-- All paths together give what each of them gives alone, one after the other. -/
theorem Recalls.loadPaths (h : Recalls d cp s) (base : String) (instantiates : Bool)
    (paths : List Path) : ((finder d).loadPaths base instantiates paths s).1 =
      .concat (paths.map (LoadReport.ofPath d cp base instantiates)) := by
  induction paths generalizing s with
  | nil => rfl
  | cons path rest ih =>
    obtain ⟨hpath, hkeeps⟩ := h.loadPath base instantiates path
    rw [Finder.loadPaths, List.map_cons, LoadReport.concat_cons, ← ih hkeeps, ← hpath]

end ClassPath.Session

/-- A folder gives what its paths give one by one, in their order. -/
theorem LoadReport.ofFolder_eq (d : Disk) (cp : ClassPath) (folder : Path) (base : String)
    (instantiates : Bool) : ofFolder d cp folder base instantiates =
      concat ((d.collect folder Naming.artifactExtension).map (ofPath d cp base instantiates)) :=
  (ClassPath.Session.recalls_new d cp).loadPaths base instantiates _

end LiveRules
