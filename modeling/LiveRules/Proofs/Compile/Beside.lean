import LiveRules.Proofs.Compile.Units
import LiveRules.Proofs.Files.Identifiers

/-!
Disks that differ in units. Compiling and removing units touches nothing that has another name,
and once the visible units below a folder are removed nothing tells two disks apart that differed
in these only.
-/

namespace LiveRules.Disk

variable {d e : Disk} {root p : Path} {P Q F : Place} {names : List String} {ext : String}

/-! ### Names of units -/

/-- A place has the name of a unit. -/
def IsUnitName (P : Place) : Prop :=
  ∃ stem, P.getLast? = some (stem ++ "." ++ Naming.artifactExtension)

theorem getLast?_append_of_ne (h : names ≠ []) : (F ++ names).getLast? = names.getLast? := by
  rw [List.getLast?_append_of_ne_nil _ h]

theorem NamesUnit.isUnitName (h : NamesUnit names) : IsUnitName (F ++ names) := by
  have hext := h.extension
  rw [endsWith, beq_iff_eq, Option.bind_eq_some_iff] at hext
  obtain ⟨name, hname, hcut⟩ := hext
  exact ⟨(Path.cutName name).1, by
    rw [getLast?_append_of_ne h.ne_nil, hname, ← Path.eq_of_cutName hcut]⟩

/-- A name with another extension is not that of a unit. -/
theorem not_isUnitName (hne : names ≠ []) (h : endsWith names ext = true)
    (hext : ext ≠ Naming.artifactExtension) : ¬IsUnitName (F ++ names) := by
  rintro ⟨stem, hlast⟩
  rw [getLast?_append_of_ne hne] at hlast
  rw [endsWith, hlast, beq_iff_eq] at h
  exact hext (Path.ext_of_cutName (by decide) h)

theorem UnitPlace.isUnitName (h : d.UnitPlace root P) : IsUnitName P := by
  obtain ⟨F, names, -, hnames, rfl⟩ := h
  exact hnames.isUnitName

/-! ### Disks beside each other -/

/-- A disk that has what another one has, but for units; it may have further folders. -/
structure Beside (d e : Disk) : Prop where
  current : e.current = d.current
  entry? : ∀ Q, e.entry? Q = d.entry? Q ∨ d.entry? Q = none ∧ e.entry? Q = some .folder ∨
    IsUnitName Q ∧ d.entry? Q ≠ some .folder ∧ e.entry? Q ≠ some .folder

theorem Beside.folder (h : Beside d e) (hQ : d.entry? Q = some .folder) :
    e.entry? Q = some .folder := by
  rcases h.entry? Q with hq | ⟨-, hq⟩ | ⟨-, hne, -⟩
  · rw [hq, hQ]
  · exact hq
  · exact absurd hQ hne

theorem Beside.place? (h : Beside d e) (hp : d.place? p = .ok P) : e.place? p = .ok P :=
  place?_mono h.current (fun _ hQ => h.folder hQ) hp

theorem Beside.file {x : Bool} {content : Text.Bytes} (h : Beside d e) (hQ : ¬IsUnitName Q) :
    e.entry? Q = some (.file content x) ↔ d.entry? Q = some (.file content x) := by
  rcases h.entry? Q with hq | ⟨hnone, hq⟩ | ⟨hname, -⟩
  · rw [hq]
  · simp [hnone, hq]
  · exact absurd hname hQ

theorem Beside.read (h : Beside d e) (hd : d.Sound) (he : e.Sound) (hp : d.place? p = .ok P)
    (hP : ¬IsUnitName P) (hfile : d.HasFile P) : e.read p = d.read p := by
  obtain ⟨content, x, hx⟩ := hfile
  rw [(read_eq_ok_iff hd).mpr ⟨P, x, hp, hx⟩]
  exact (read_eq_ok_iff he).mpr ⟨P, x, h.place? hp, (h.file hP).mpr hx⟩

/-- The units that a removal takes away are all that tells the disks before and after it apart. -/
theorem beside_of_removeUnits {k : Nat} (h : d.Regular)
    (hr : Pass.removeUnits d root = (.ok k, e)) : Beside d e := by
  obtain ⟨-, hsame, hentries⟩ := Pass.removeUnits_spec h hr
  refine ⟨hsame.current, fun Q => ?_⟩
  rcases hentries Q with ⟨hQ, -⟩ | ⟨hQ, hplace, content, x, hx⟩
  · exact .inl hQ
  · exact .inr (.inr ⟨hplace.isUnitName, by simp [hx], by simp [hQ]⟩)

/-! ### Disks that differ in units -/

/-- Two disks differ only in which visible units lie below a folder, and in what these hold. -/
structure DifferInUnits (root : Path) (d e : Disk) : Prop where
  current : e.current = d.current
  entry? : ∀ Q, e.entry? Q = d.entry? Q ∨
    d.UnitPlace root Q ∧ d.entry? Q ≠ some .folder ∧ e.entry? Q ≠ some .folder

theorem DifferInUnits.sameFolders (h : DifferInUnits root d e) : SameFolders d e := by
  refine ⟨h.current, fun Q => ?_⟩
  rcases h.entry? Q with hq | ⟨-, hd, he⟩
  · rw [hq]
  · exact iff_of_false he hd

/-- Once the units are removed nothing tells the disks apart. -/
theorem DifferInUnits.twins {d' e' : Disk} {k m : Nat} (h : DifferInUnits root d e)
    (hd : d.Regular) (he : e.Regular) (hr : Pass.removeUnits d root = (.ok k, d'))
    (hr' : Pass.removeUnits e root = (.ok m, e')) : Twins d' e' := by
  obtain ⟨hd', hsame, hentries⟩ := Pass.removeUnits_spec hd hr
  obtain ⟨he', hsame', hentries'⟩ := Pass.removeUnits_spec he hr'
  refine ⟨hd', he', (hsame'.current.trans h.current).trans hsame.current.symm,
    hd'.sound.troubles_eq he'.sound, fun Q => ?_⟩
  -- a place of a unit holds a folder, or nothing once units are removed
  have hnone {x x' : Disk} (hplace : x.UnitPlace root Q) (hno : x.entry? Q ≠ some .folder)
      (hQ : x'.entry? Q = x.entry? Q ∧ ¬(x.UnitPlace root Q ∧ x.HasFile Q) ∨
        x'.entry? Q = none ∧ x.UnitPlace root Q ∧ x.HasFile Q) : x'.entry? Q = none := by
    rcases hQ with ⟨hQ, hnot⟩ | ⟨hQ, -⟩
    · rw [hQ]
      cases hx : x.entry? Q with
      | none => rfl
      | some entry =>
        cases entry with
        | folder => exact absurd hx hno
        | file content executable => exact absurd ⟨hplace, content, executable, hx⟩ hnot
    · exact hQ
  rcases h.entry? Q with hq | ⟨hplace, hdQ, heQ⟩
  · have hplaces : e.UnitPlace root Q ↔ d.UnitPlace root Q := h.sameFolders.unitPlace
    have hfile : e.HasFile Q ↔ d.HasFile Q := by rw [HasFile, HasFile, hq]
    rcases hentries Q with ⟨hQ, hnot⟩ | ⟨hQ, hyes⟩
    · rcases hentries' Q with ⟨hQ', -⟩ | ⟨-, hyes'⟩
      · rw [hQ, hQ', hq]
      · exact absurd (hyes'.imp hplaces.mp hfile.mp) hnot
    · rcases hentries' Q with ⟨-, hnot'⟩ | ⟨hQ', -⟩
      · exact absurd (hyes.imp hplaces.mpr hfile.mpr) hnot'
      · rw [hQ, hQ']
  · rw [hnone hplace hdQ (hentries Q),
      hnone (h.sameFolders.unitPlace.mpr hplace) heQ (hentries' Q)]

end LiveRules.Disk
