import LiveRules.Proofs.Compile.Again
import LiveRules.Proofs.Compile.Dotted
import LiveRules.Proofs.Json.Packs
import Mathlib.Data.List.Perm.Subperm

/-!
What a compiled batch looks like from outside. Below the folder of all units lie the units of the
batch and no others: a search collects just their paths, and a look-up under a dotted name finds a
unit of the batch or nothing.
-/

namespace LiveRules

open Disk

/-- Different dotted identifiers spell different paths. -/
theorem Naming.IsDotted.artifactPath_injective {root : Path} {identifier identifier' : String}
    (h : IsDotted identifier) (h' : IsDotted identifier')
    (heq : artifactPath root identifier = artifactPath root identifier') :
    identifier = identifier' := by
  have hcomponents := congrArg Path.components heq
  rw [artifactPath_eq_below, artifactPath_eq_below] at hcomponents
  exact h.names_injective h' (below_injective (isName_names h.no_slash) (isName_names h'.no_slash)
    hcomponents)

/-- Units can be put in the order of the paths of their files. -/
theorem exists_ordered (root : Path) (units : List Artifact) : ∃ ordered : List Artifact,
    ordered.Perm units ∧
    (ordered.Pairwise fun a b => (Naming.artifactPath root a.identifier).le
      (Naming.artifactPath root b.identifier) = true) ∧
    Path.sort (units.map fun a => Naming.artifactPath root a.identifier) =
      ordered.map fun a => Naming.artifactPath root a.identifier := by
  have hsorted := Path.pairwise_sort (units.map fun a => Naming.artifactPath root a.identifier)
  obtain ⟨ordered, hpaths, hperm⟩ := (congrFun₂ (List.eq_map_comp_perm fun (a : Artifact) =>
    Naming.artifactPath root a.identifier) _ units).mpr (Path.sort_perm _)
  rw [hpaths, List.pairwise_map] at hsorted
  exact ⟨ordered, hperm, hsorted, hpaths⟩

/-- Some units lie below a folder, each in its own file, and no other visible unit does. -/
structure Holds (d : Disk) (root : Path) (F : Place) (units : List Artifact) : Prop where
  regular : d.Regular
  place : d.place? root = .ok F
  dotted : ∀ a ∈ units, Naming.IsDotted a.identifier
  distinct : (units.map (·.identifier)).Nodup
  comesBack : ∀ a ∈ units, a.ComesBack
  path : ∀ a ∈ units, d.place? (Naming.artifactPath root a.identifier) =
    .ok (F ++ Naming.names a.identifier)
  file : ∀ a ∈ units, ∃ x, d.entry? (F ++ Naming.names a.identifier) =
    some (.file (Text.encode a.text) x)
  only : ∀ names, NamesUnit names → d.HasFile (F ++ names) →
    ∃ a ∈ units, names = Naming.names a.identifier

namespace Holds

variable {d : Disk} {root : Path} {F : Place} {units : List Artifact} {a : Artifact}
variable {identifier : String}

theorem isFile (h : Holds d root F units) (ha : a ∈ units) :
    d.isFile (Naming.artifactPath root a.identifier) = true := by
  obtain ⟨x, hx⟩ := h.file a ha
  exact (isFile_iff h.regular.sound).mpr ⟨_, _, x, h.path a ha, hx⟩

theorem find?_of_mem (h : Holds d root F units) (ha : a ∈ units) :
    (ClassPath.Entry.folder root).find? d a.identifier = .ok (some a) := by
  obtain ⟨x, hx⟩ := h.file a ha
  have hread : Artifact.read d (Naming.artifactPath root a.identifier) = .ok a :=
    Artifact.read_eq_ok (h.comesBack a ha)
      ((read_eq_ok_iff h.regular.sound).mpr ⟨_, x, h.path a ha, hx⟩)
  rw [ClassPath.Entry.find?]
  simp only [h.isFile ha, ↓reduceIte, hread]

theorem find?_of_not_mem (h : Holds d root F units) (hroot : root.text ≠ "")
    (hdotted : Naming.IsDotted identifier)
    (hnot : identifier ∉ units.map (·.identifier)) :
    (ClassPath.Entry.folder root).find? d identifier = .ok none := by
  have hnone : d.isFile (Naming.artifactPath root identifier) = false := by
    rw [← Bool.not_eq_true]
    intro hfile
    obtain ⟨P, content, x, hP, hx⟩ := (isFile_iff h.regular.sound).mp hfile
    rw [Naming.artifactPath_eq_below] at hP
    obtain ⟨G, hG, rfl⟩ := place?_below (Naming.isName_names hdotted.no_slash)
      Naming.names_ne_nil hroot hP
    rw [h.place] at hG
    cases hG
    obtain ⟨a, ha, hnames⟩ := h.only _ hdotted.namesUnit ⟨content, x, hx⟩
    obtain rfl := hdotted.names_injective (h.dotted a ha) hnames
    exact hnot (List.mem_map_of_mem ha)
  rw [ClassPath.Entry.find?]
  simp only [hnone, Bool.false_eq_true, ↓reduceIte]

/-- The paths of the units are all that a search collects. -/
theorem mem_collect_iff (h : Holds d root F units) {q : Path} :
    q ∈ d.collect root Naming.artifactExtension ↔
      q ∈ units.map fun a => Naming.artifactPath root a.identifier := by
  rw [mem_collect_units h.regular, List.mem_map]
  constructor
  · rintro ⟨G, names, hG, hnames, hfile, rfl⟩
    rw [h.place] at hG
    cases hG
    obtain ⟨a, ha, rfl⟩ := h.only names hnames hfile
    exact ⟨a, ha, Naming.artifactPath_eq_below⟩
  · rintro ⟨a, ha, rfl⟩
    obtain ⟨x, hx⟩ := h.file a ha
    exact ⟨F, _, h.place, (h.dotted a ha).namesUnit, ⟨_, x, hx⟩, Naming.artifactPath_eq_below⟩

theorem names_inj (h : Holds d root F units) {b : Artifact} (ha : a ∈ units) (hb : b ∈ units)
    (heq : Naming.names a.identifier = Naming.names b.identifier) : a = b :=
  List.inj_on_of_nodup_map h.distinct ha hb
    ((h.dotted a ha).names_injective (h.dotted b hb) heq)

theorem nodup_places (h : Holds d root F units) :
    (units.map fun a => F ++ Naming.names a.identifier).Nodup :=
  (h.distinct.of_map _).map_on fun _ ha _ hb hab =>
    h.names_inj ha hb (List.append_cancel_left hab)

/-- There are no more units than entries on the disk. -/
theorem length_le (h : Holds d root F units) : units.length ≤ d.entries.length := by
  have hsub : (units.map fun a => F ++ Naming.names a.identifier) ⊆ d.entries.map Prod.fst := by
    intro P hP
    obtain ⟨a, ha, rfl⟩ := List.mem_map.mp hP
    obtain ⟨x, hx⟩ := h.file a ha
    exact List.mem_map.mpr ⟨_, h.regular.tree.mem_iff.mpr
      ⟨by simp [Naming.names_ne_nil], hx⟩, rfl⟩
  have hlength := (List.subperm_of_subset h.nodup_places hsub).length_le
  rwa [List.length_map, List.length_map] at hlength

/-- A search collects the paths of the units in their order. -/
theorem collect_eq (h : Holds d root F units) : d.collect root Naming.artifactExtension =
    Path.sort (units.map fun a => Naming.artifactPath root a.identifier) := by
  refine collect_eq_sort h.regular ?_ fun q => h.mem_collect_iff
  exact (h.distinct.of_map _).map_on fun a ha b hb hab =>
    List.inj_on_of_nodup_map h.distinct ha hb
      ((h.dotted a ha).artifactPath_injective (h.dotted b hb) hab)

/-- What is collected there is read as the units, in the order of their paths. -/
theorem readAll_collect (h : Holds d root F units) : ∃ ordered : List Artifact,
    ordered.Perm units ∧
    Pack.readAll d (d.collect root Naming.artifactExtension) = .ok ordered := by
  obtain ⟨ordered, hperm, -, hpaths⟩ := exists_ordered root units
  have hread : Pack.readAll d (ordered.map fun a => Naming.artifactPath root a.identifier) =
      .ok (ordered.map id) := by
    refine Pack.readAll_map fun a ha => ?_
    have hunit := hperm.mem_iff.mp ha
    obtain ⟨x, hx⟩ := h.file a hunit
    exact Artifact.read_eq_ok (h.comesBack a hunit)
      ((read_eq_ok_iff h.regular.sound).mpr ⟨_, x, h.path a hunit, hx⟩)
  rw [h.collect_eq, hpaths]
  exact ⟨ordered, hperm, hread.trans (by rw [List.map_id])⟩

end Holds

namespace Builtin

variable {units : List Artifact} {g : Artifact → Place} {Q : Place} {a : Artifact}
variable {d d' : Disk} {root : Path} {places : List Place}

theorem lastAt_map_eq_none (h : ∀ a ∈ units, g a ≠ Q) : lastAt Q units (units.map g) = none := by
  induction units with
  | nil => rfl
  | cons b rest ih =>
    rw [List.map_cons, lastAt, ih fun a ha => h a (List.mem_cons_of_mem b ha), Option.none_or,
      if_neg (h b List.mem_cons_self)]

/-- Where the places differ, each unit is the last at its place. -/
theorem lastAt_map_of_mem (h : (units.map g).Nodup) (ha : a ∈ units) :
    lastAt (g a) units (units.map g) = some a := by
  induction units with
  | nil => cases ha
  | cons b rest ih =>
    rw [List.map_cons, List.nodup_cons] at h
    rw [List.map_cons, lastAt]
    rcases List.mem_cons.mp ha with rfl | ha
    · have hnone : lastAt (g a) rest (rest.map g) = none :=
        lastAt_map_eq_none fun c hc he => h.1 (he ▸ List.mem_map_of_mem hc)
      rw [hnone, Option.none_or, if_pos rfl]
    · rw [ih h.2 ha, Option.some_or]

/-- The path of a unit leads below the folder of all units. -/
theorem place_below (hdotted : Naming.IsDotted a.identifier) (hroot : root.text ≠ "") {P : Place}
    (hP : d.place? (Naming.artifactPath root a.identifier) = .ok P) :
    ∃ F, d.place? root = .ok F ∧ P = F ++ Naming.names a.identifier := by
  rw [Naming.artifactPath_eq_below] at hP
  exact place?_below (Naming.isName_names hdotted.no_slash) Naming.names_ne_nil hroot hP

/-- Units with different dotted identifiers are stored at different places below a folder, so each
is still there when all are stored. -/
theorem StoredAll.below (h : StoredAll root units places d d') (hroot : root.text ≠ "")
    (hne : units ≠ []) (hdotted : ∀ a ∈ units, Naming.IsDotted a.identifier)
    (hdistinct : (units.map (·.identifier)).Nodup) : ∃ F, d'.place? root = .ok F ∧
      places = (units.map fun a => F ++ Naming.names a.identifier) ∧
      (∀ a ∈ units, d'.place? (Naming.artifactPath root a.identifier) =
        .ok (F ++ Naming.names a.identifier)) ∧
      ∀ a ∈ units, ∃ x, d'.entry? (F ++ Naming.names a.identifier) =
        some (.file (Text.encode a.text) x) := by
  -- any unit shows where the folder is
  obtain ⟨b, hb⟩ := List.exists_mem_of_ne_nil units hne
  obtain ⟨Q, -, hQ⟩ := exists_of_forall₂_left h.place b hb
  obtain ⟨F, hF, -⟩ := place_below (hdotted b hb) hroot hQ
  have hplaces : places = units.map fun a => F ++ Naming.names a.identifier := by
    have hall := h.place
    rw [List.forall₂_iff_zip] at hall
    symm
    rw [← List.forall₂_eq_eq_eq, List.forall₂_map_left_iff, List.forall₂_iff_zip]
    refine ⟨hall.1, fun {a P} hmem => ?_⟩
    obtain ⟨G, hG, rfl⟩ := place_below (hdotted a (List.of_mem_zip hmem).1) hroot (hall.2 hmem)
    obtain rfl := Except.ok.inj (hF.symm.trans hG)
    rfl
  have hnodup : (units.map fun a => F ++ Naming.names a.identifier).Nodup :=
    (hdistinct.of_map _).map_on fun a ha b hb hab =>
      List.inj_on_of_nodup_map hdistinct ha hb
        ((hdotted a ha).names_injective (hdotted b hb) (List.append_cancel_left hab))
  subst hplaces
  refine ⟨F, hF, rfl, ?_, fun a ha => ⟨_, (h.file _ a (lastAt_map_of_mem hnodup ha)).2⟩⟩
  have hpath := h.place
  rwa [List.forall₂_map_right_iff, List.forall₂_same] at hpath

/-- A file below the folder of all units is one of the units, or was there before. -/
theorem StoredAll.names_of_hasFile (h : StoredAll root units places d d')
    (hslash : ∀ a ∈ units, '/' ∉ a.identifier.toList) (hroot : root.text ≠ "") {F : Place}
    {names : List String} (hF : d'.place? root = .ok F) (hfile : d'.HasFile (F ++ names)) :
    (∃ a ∈ units, names = Naming.names a.identifier) ∨ d.HasFile (F ++ names) := by
  obtain ⟨content, x, hx⟩ := hfile
  cases hlast : lastAt (F ++ names) units places with
  | some a =>
    obtain ⟨hmem, hat⟩ := Pass.place_of_lastAt h.place hlast
    rw [Naming.artifactPath_eq_below] at hat
    obtain ⟨G, hG, heq⟩ := place?_below (Naming.isName_names (hslash a hmem)) Naming.names_ne_nil
      hroot hat
    obtain rfl := Except.ok.inj (hF.symm.trans hG)
    exact .inl ⟨a, hmem, List.append_cancel_left heq⟩
  | none =>
    rcases h.other _ hlast with hq | ⟨-, hq⟩
    · exact .inr ⟨content, x, hq.symm.trans hx⟩
    · cases hq.symm.trans hx

/-- Units that are stored below a folder without visible units are all that is there. -/
theorem StoredAll.holds (h : StoredAll root units places d d') (hroot : root.text ≠ "") {F : Place}
    (hF : d.place? root = .ok F) (hdotted : ∀ a ∈ units, Naming.IsDotted a.identifier)
    (hdistinct : (units.map (·.identifier)).Nodup) (hcomes : ∀ a ∈ units, a.ComesBack)
    (hempty : ∀ names, NamesUnit names → ¬d.HasFile (F ++ names)) : Holds d' root F units := by
  have hplace := place?_mono h.current h.folder hF
  have hbelow : ∀ a ∈ units, d'.place? (Naming.artifactPath root a.identifier) =
      .ok (F ++ Naming.names a.identifier) ∧ ∃ x, d'.entry? (F ++ Naming.names a.identifier) =
        some (.file (Text.encode a.text) x) := by
    intro a ha
    obtain ⟨G, hG, -, hpath, hfile⟩ := h.below hroot (List.ne_nil_of_mem ha) hdotted hdistinct
    obtain rfl := Except.ok.inj (hplace.symm.trans hG)
    exact ⟨hpath a ha, hfile a ha⟩
  refine ⟨h.regular, hplace, hdotted, hdistinct, hcomes, fun a ha => (hbelow a ha).1,
    fun a ha => (hbelow a ha).2, fun names hnames hfile => ?_⟩
  exact (h.names_of_hasFile (fun a ha => (hdotted a ha).no_slash) hroot hplace hfile).resolve_right
    (hempty names hnames)

end Builtin

/-- The linked units of a batch without problems have different identifiers. -/
theorem Link.identifiers_nodup {s : Link.Scope} {batch : List CheckedUnit}
    (h : Link.problems s batch = []) :
    ((batch.map (Link.linked s)).map (·.identifier)).Nodup := by
  rw [Link.problems, List.append_eq_nil_iff, Link.duplicates_eq_nil_iff] at h
  rw [List.map_map]
  exact h.1.1

namespace Pass

variable {d₀ d₁ d₂ : Disk} {c : Config} {batch : List CheckedUnit} {k : Nat}

theorem batch_ne_nil (h : Compiles c d₁ d₂ batch) : batch ≠ [] := by
  have hlength := (Builtin.forall₂_of_checkAll h.checked).length_eq
  intro hnil
  rw [hnil, List.length_nil, List.length_eq_zero_iff] at hlength
  exact h.nonempty hlength

/-- Every visible unit that is there after a pass lies where a unit of the batch belongs: one that
was there before has been removed. -/
theorem Compiles.names_of_hasFile (h₀ : d₀.Regular) (hcompiles : Compiles c d₁ d₂ batch)
    (hremoved : removeUnits d₀ c.folders.ruleClasses = (.ok k, d₁))
    (hplace : KeepsPlace c.folders.ruleClasses d₀ d₂) (hroot : c.folders.ruleClasses.text ≠ "")
    {F : Place} {names : List String} (hF : d₂.place? c.folders.ruleClasses = .ok F)
    (hnames : NamesUnit names) (hfile : d₂.HasFile (F ++ names)) :
    ∃ a ∈ linkedUnits c d₁ batch, names = Naming.names a.identifier := by
  obtain ⟨h₁, -, hentries⟩ := removeUnits_spec h₀ hremoved
  obtain ⟨places, made, hstored⟩ := hcompiles.storedBatch h₁
  have hslash : ∀ a ∈ linkedUnits c d₁ batch, '/' ∉ a.identifier.toList := by
    intro a ha
    obtain ⟨p, hp, rfl⟩ := List.mem_map.mp ha
    exact Builtin.no_slash_of_checkAll hcompiles.checked p hp
  rcases hstored.stored.names_of_hasFile hslash hroot hF hfile with hof | hold
  · exact hof
  · obtain ⟨content, x, hx⟩ := hold
    have hx₁ := hstored.grown.file hx
    rcases hentries (F ++ names) with ⟨hq, hnot⟩ | ⟨hq, -⟩
    · rw [hq] at hx₁
      exact absurd ⟨⟨F, names, hplace F names hF hnames ⟨content, x, hx₁⟩, hnames, rfl⟩,
        content, x, hx₁⟩ hnot
    · cases hq.symm.trans hx₁

/-- A pass that stores a batch leaves the linked units below their folder, and no others. -/
theorem Compiles.holds (h₀ : d₀.Regular) (hcompiles : Compiles c d₁ d₂ batch)
    (hremoved : removeUnits d₀ c.folders.ruleClasses = (.ok k, d₁))
    (hplace : KeepsPlace c.folders.ruleClasses d₀ d₂) (hroot : c.folders.ruleClasses.text ≠ "")
    (hdotted : ∀ a ∈ linkedUnits c d₁ batch, Naming.IsDotted a.identifier)
    (hcomes : ∀ a ∈ linkedUnits c d₁ batch, a.ComesBack) :
    ∃ F, Holds d₂ c.folders.ruleClasses F (linkedUnits c d₁ batch) := by
  obtain ⟨h₁, -, -⟩ := removeUnits_spec h₀ hremoved
  obtain ⟨places, made, hstored⟩ := hcompiles.storedBatch h₁
  have hdistinct : ((linkedUnits c d₁ batch).map (·.identifier)).Nodup :=
    Link.identifiers_nodup hcompiles.links
  obtain ⟨F, hF, rfl, hpath, hfile⟩ := hstored.stored.below hroot
    (by simpa using batch_ne_nil hcompiles) hdotted hdistinct
  exact ⟨F, hstored.stored.regular, hF, hdotted, hdistinct, hcomes, hpath, hfile,
    fun names hnames hfile => hcompiles.names_of_hasFile h₀ hremoved hplace hroot hF hnames hfile⟩

end Pass

end LiveRules
