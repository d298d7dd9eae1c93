import LiveRules.Compile.Pass
import LiveRules.Proofs.Files.Effects
import LiveRules.Proofs.Files.Twins

/-!
Units on a disk. Removing the units below a folder takes away all visible ones and nothing else;
storing a batch sets the files of its units and adds folders on the way to them.
-/

namespace LiveRules

namespace Disk

variable {d d' e : Disk} {p q folder : Path} {P Q F : Place} {names : List String}

/-! ### Folders and places -/

/-- Two disks with the same folders. -/
structure SameFolders (d e : Disk) : Prop where
  current : e.current = d.current
  folder : ∀ Q, e.entry? Q = some .folder ↔ d.entry? Q = some .folder

theorem SameFolders.place? (h : SameFolders d e) :
    e.place? p = .ok P ↔ d.place? p = .ok P :=
  ⟨place?_mono h.current.symm fun Q hQ => (h.folder Q).mp hQ,
    place?_mono h.current fun Q hQ => (h.folder Q).mpr hQ⟩

theorem Sets.sameFolders {o : Option Entry} (h : Sets P o d e) (hP : d.entry? P ≠ some .folder)
    (ho : o ≠ some .folder) : SameFolders d e := by
  refine ⟨h.current, fun Q => ?_⟩
  rw [h.entry?]
  split <;> rename_i hq
  · subst hq
    simp [ho, hP]
  · rfl

theorem SameFolders.trans {c : Disk} (h : SameFolders d e) (h' : SameFolders e c) :
    SameFolders d c :=
  ⟨h'.current.trans h.current, fun Q => (h'.folder Q).trans (h.folder Q)⟩

theorem Same.sameFolders (h : Same d e) : SameFolders d e :=
  ⟨h.current, fun Q => by rw [h.entry?]⟩

/-- Where a file is moved there was no folder, and none is there now. -/
theorem Moved.sameFolders {S T : Place} (h : Moved S T d e) : SameFolders d e := by
  refine ⟨h.current, fun Q => ?_⟩
  obtain ⟨content, x, hfile⟩ := h.file
  rw [h.entry?, hfile]
  split
  · rename_i hQ
    rw [hQ]
    exact ⟨fun hno => (by cases hno), fun hno => absurd hno h.target⟩
  · split
    · rename_i hQ
      rw [hQ, hfile]
      exact ⟨fun hno => (by cases hno), fun hno => (by cases hno)⟩
    · exact Iff.rfl

/-! ### Places of units -/

/-- Some names lead to a visible unit. -/
structure NamesUnit (names : List String) : Prop where
  ne_nil : names ≠ []
  visible : ∀ name ∈ names, isHidden name = false
  extension : endsWith names Naming.artifactExtension = true

/-- A place where a visible unit may lie below a folder. -/
def UnitPlace (d : Disk) (folder : Path) (P : Place) : Prop :=
  ∃ F names, d.place? folder = .ok F ∧ NamesUnit names ∧ P = F ++ names

theorem SameFolders.unitPlace (h : SameFolders d e) :
    e.UnitPlace folder P ↔ d.UnitPlace folder P := by
  simp only [UnitPlace, h.place?]

/-- The places of the units that are collected below a folder. -/
theorem mem_collect_units (h : d.Regular) : q ∈ d.collect folder Naming.artifactExtension ↔
    ∃ F names, d.place? folder = .ok F ∧ NamesUnit names ∧ d.HasFile (F ++ names) ∧
      q = below folder names := by
  rw [mem_collect h]
  constructor
  · rintro ⟨F, names, hF, -, hne, hfile, hvisible, hext, rfl⟩
    exact ⟨F, names, hF, ⟨hne, hvisible, hext⟩, hfile, rfl⟩
  · rintro ⟨F, names, hF, hnames, hfile, rfl⟩
    obtain ⟨content, x, hx⟩ := hfile
    exact ⟨F, names, hF, h.tree.above hnames.ne_nil (by rw [hx]; simp), hnames.ne_nil,
      ⟨content, x, hx⟩, hnames.visible, hnames.extension, rfl⟩

end Disk

namespace Pass

open Disk

variable {d d' : Disk} {folder : Path} {Q : Place}

/-! ### Removing -/

/-- Removing files takes away what the paths lead to and keeps everything else. -/
theorem removeAll_spec {paths : List Path} (h : d.Regular)
    (hr : removeAll d paths = (.ok (), d')) : d'.Regular ∧ SameFolders d d' ∧
      (∀ p ∈ paths, ∃ P, d.place? p = .ok P) ∧
      ∀ Q, d'.entry? Q = d.entry? Q ∧ (∀ p ∈ paths, d.place? p ≠ .ok Q) ∨
        d'.entry? Q = none ∧ d.HasFile Q ∧ ∃ p ∈ paths, d.place? p = .ok Q := by
  induction paths generalizing d with
  | nil =>
    simp only [removeAll, Prod.mk.injEq] at hr
    obtain ⟨-, rfl⟩ := hr
    exact ⟨h, Same.refl.sameFolders, by simp, fun Q => .inl ⟨rfl, by simp⟩⟩
  | cons p rest ih =>
    rw [removeAll] at hr
    rcases hp : d.removeFile p with ⟨err | ⟨⟩, d₁⟩
    · simp [hp] at hr
    · rw [hp] at hr
      obtain ⟨h₁, ⟨-, P, content, x, hP, hx, hsets⟩ | ⟨err, he, -⟩⟩ := removeFile_spec h hp
      · have hsame := hsets.sameFolders (by simp [hx]) (by simp)
        obtain ⟨h', hsame', hplaces, hentries⟩ := ih h₁ hr
        refine ⟨h', hsame.trans hsame', ?_, fun Q => ?_⟩
        · intro q hq
          rcases List.mem_cons.mp hq with rfl | hq
          · exact ⟨P, hP⟩
          · obtain ⟨R, hR⟩ := hplaces q hq
            exact ⟨R, hsame.place?.mp hR⟩
        · rcases hentries Q with ⟨hQ, hnone⟩ | ⟨hQ, ⟨content', x', hfile⟩, q, hq, hqQ⟩
          · rw [hsets.entry?] at hQ
            by_cases hQP : Q = P
            · subst hQP
              rw [if_pos rfl] at hQ
              exact .inr ⟨hQ, ⟨content, x, hx⟩, p, List.mem_cons_self, hP⟩
            · rw [if_neg hQP] at hQ
              refine .inl ⟨hQ, fun q hq hqQ => ?_⟩
              rcases List.mem_cons.mp hq with rfl | hq
              · rw [hP] at hqQ
                cases hqQ
                exact hQP rfl
              · exact hnone q hq (hsame.place?.mpr hqQ)
          · rw [hsets.entry?] at hfile
            by_cases hQP : Q = P
            · rw [if_pos hQP] at hfile
              cases hfile
            · rw [if_neg hQP] at hfile
              exact .inr ⟨hQ, ⟨content', x', hfile⟩, q, List.mem_cons_of_mem p hq,
                hsame.place?.mp hqQ⟩
      · cases he

/-- Removing the units below a folder takes away exactly the visible ones. -/
theorem removeUnits_spec {n : Nat} (h : d.Regular)
    (hr : removeUnits d folder = (.ok n, d')) : d'.Regular ∧ SameFolders d d' ∧
      ∀ Q, d'.entry? Q = d.entry? Q ∧ ¬(d.UnitPlace folder Q ∧ d.HasFile Q) ∨
        d'.entry? Q = none ∧ d.UnitPlace folder Q ∧ d.HasFile Q := by
  rw [removeUnits] at hr
  rcases hall : removeAll d (d.collect folder Naming.artifactExtension) with ⟨err | ⟨⟩, d₁⟩
  · simp [hall] at hr
  · simp only [hall, Prod.mk.injEq] at hr
    obtain ⟨-, rfl⟩ := hr
    obtain ⟨h', hsame, hplaces, hentries⟩ := removeAll_spec h hall
    -- each collected path leads to the place that its names spell
    have hplace (F : Place) (names : List String) (hF : d.place? folder = .ok F)
        (hnames : NamesUnit names) (hfile : d.HasFile (F ++ names)) (P : Place)
        (hP : d.place? (below folder names) = .ok P) : P = F ++ names := by
      have hplain := (place?_eq_ok_iff.mp hF).1
      obtain ⟨G, hG, hPG⟩ :=
        place?_below (isNames_of_hasFile h hfile) hnames.ne_nil hplain.ne_empty hP
      rw [hF] at hG
      cases hG
      exact hPG
    refine ⟨h', hsame, fun Q => ?_⟩
    rcases hentries Q with ⟨hQ, hnone⟩ | ⟨hQ, hfile, q, hq, hqQ⟩
    · refine .inl ⟨hQ, ?_⟩
      rintro ⟨⟨F, names, hF, hnames, rfl⟩, hfile⟩
      have hq := (mem_collect_units h).mpr ⟨F, names, hF, hnames, hfile, rfl⟩
      obtain ⟨P, hP⟩ := hplaces _ hq
      exact hnone _ hq (hplace F names hF hnames hfile P hP ▸ hP)
    · obtain ⟨F, names, hF, hnames, hfile', rfl⟩ := (mem_collect_units h).mp hq
      obtain rfl := hplace F names hF hnames hfile' Q hqQ
      exact .inr ⟨hQ, ⟨F, names, hF, hnames, rfl⟩, hfile⟩

/-- No unit is left below the folder. -/
theorem collect_after_removeUnits {n : Nat} (h : d.Regular)
    (hr : removeUnits d folder = (.ok n, d')) :
    d'.collect folder Naming.artifactExtension = [] := by
  obtain ⟨h', hsame, hentries⟩ := removeUnits_spec h hr
  rw [List.eq_nil_iff_forall_not_mem]
  intro q hq
  obtain ⟨F, names, hF, hnames, ⟨content, x, hx⟩, -⟩ := (mem_collect_units h').mp hq
  have hplace : d.UnitPlace folder (F ++ names) := ⟨F, names, hsame.place?.mp hF, hnames, rfl⟩
  rcases hentries (F ++ names) with ⟨hQ, hnot⟩ | ⟨hQ, -⟩
  · exact hnot ⟨hplace, content, x, hQ ▸ hx⟩
  · rw [hQ] at hx
    cases hx

end Pass

/-! ### Storing -/

namespace Artifact

open Disk

variable {a : Artifact} {d d' : Disk} {root path : Path} {P Q : Place}

/-- The folder that the file of a unit lies in. -/
def home (root : Path) (a : Artifact) : Path :=
  (Naming.artifactPath root a.identifier).parent?.getD ⟨""⟩

/-- Whether nothing has to be made before a file can be put below a path. -/
def IsMade (d : Disk) (p : Path) : Prop := p.isEmpty = true ∨ d.isFolder p = true

/-- A disk with the file of a unit, and perhaps with new folders on the way to it. -/
structure Stored (root : Path) (a : Artifact) (P : Place) (d d' : Disk) : Prop where
  regular : d'.Regular
  current : d'.current = d.current
  place : d'.place? (Naming.artifactPath root a.identifier) = .ok P
  free : d.entry? P ≠ some .folder
  file : d'.entry? P = some (.file (Text.encode a.text) (d.isExecutable P))
  other : ∀ Q, Q ≠ P → d'.entry? Q = d.entry? Q ∨ d.entry? Q = none ∧ d'.entry? Q = some .folder
  made : IsMade d' (home root a)
  settled : IsMade d (home root a) → ∀ Q, Q ≠ P → d'.entry? Q = d.entry? Q

theorem Stored.folder (h : Stored root a P d d') (hQ : d.entry? Q = some .folder) :
    d'.entry? Q = some .folder := by
  have hne : Q ≠ P := fun he => h.free (he ▸ hQ)
  rcases h.other Q hne with hq | ⟨hnone, -⟩
  · rw [hq, hQ]
  · rw [hQ] at hnone
    cases hnone

theorem isMade_mono {p : Path} (hd : d.Sound) (hd' : d'.Sound) (hcurrent : d'.current = d.current)
    (hfolder : ∀ Q, d.entry? Q = some .folder → d'.entry? Q = some .folder) (h : IsMade d p) :
    IsMade d' p := by
  refine h.imp id fun h => ?_
  obtain ⟨F, hp, hF⟩ := (isFolder_iff hd).mp h
  exact (isFolder_iff hd').mpr ⟨F, place?_mono hcurrent hfolder hp, hfolder F hF⟩

/-- A unit is stored at the path that its identifier spells. -/
theorem path_of_write (h : a.write d root = (.ok path, d')) :
    path = Naming.artifactPath root a.identifier := by
  unfold write at h
  dsimp only at h
  split at h
  · cases (Prod.mk.inj h).1
  · split at h
    · cases (Prod.mk.inj h).1
    · exact (Except.ok.inj (Prod.mk.inj h).1).symm

/-- A unit that is written is stored at the place that its path leads to. -/
theorem write_spec (h : d.Regular) (hw : a.write d root = (.ok path, d')) :
    path = Naming.artifactPath root a.identifier ∧ ∃ P, Stored root a P d d' := by
  obtain ⟨_, d₁, hmake, ⟨-, ⟨err, hno⟩, -⟩ | ⟨rfl, written, hwrite, ⟨rfl, hpath⟩ | ⟨-, err, hno⟩⟩⟩ :=
    write_cases hw
  · cases hno
  · change d.makeFolders (home root a) = (.ok (), d₁) at hmake
    obtain ⟨h₁, hgrown, hmade⟩ := makeFolders_spec h hmake
    obtain ⟨h₂, ⟨-, P, hP, hfree, hsets⟩ | ⟨⟨err, he⟩, -⟩⟩ := Disk.write_spec h₁ hwrite
    · have hdP : d₁.entry? P = d.entry? P := by
        rcases hgrown.entry? P with hq | ⟨-, hq⟩
        · exact hq
        · exact absurd hq hfree
      have hx : d₁.isExecutable P = d.isExecutable P := by
        rw [isExecutable, isExecutable, hdP]
      refine ⟨Except.ok.inj hpath, P, h₂, hsets.current.trans hgrown.current,
        hsets.place? hfree hP, hdP ▸ hfree, ?_, ?_, ?_, ?_⟩
      · rw [hsets.entry?, if_pos rfl, hx]
      · intro Q hQ
        rw [hsets.entry?, if_neg hQ]
        exact hgrown.entry? Q
      · exact isMade_mono h₁.sound h₂.sound hsets.current (fun Q => hsets.folder hfree)
          (hmade rfl)
      · intro hdone Q hQ
        obtain ⟨d₁', hmake', -, hsame⟩ := makeFolders_of_isFolder h hdone
        rw [hmake] at hmake'
        cases hmake'
        rw [hsets.entry?, if_neg hQ, hsame.entry?]
    · cases he
  · cases hno

end Artifact

namespace Builtin

open Disk

variable {d d' : Disk} {root : Path} {Q : Place}

/-- The last of some units that are stored at a place. -/
def lastAt (Q : Place) : List Artifact → List Place → Option Artifact
  | a :: units, P :: places => (lastAt Q units places).or (if P = Q then some a else none)
  | _, _ => none

/-- A disk after the units of a batch were stored at some places. -/
structure StoredAll (root : Path) (units : List Artifact) (places : List Place) (d d' : Disk) :
    Prop where
  regular : d'.Regular
  current : d'.current = d.current
  folder : ∀ Q, d.entry? Q = some .folder → d'.entry? Q = some .folder
  place : List.Forall₂ (fun a P => d'.place? (Naming.artifactPath root a.identifier) = .ok P)
    units places
  file : ∀ Q a, lastAt Q units places = some a → d.entry? Q ≠ some .folder ∧
    d'.entry? Q = some (.file (Text.encode a.text) (d.isExecutable Q))
  other : ∀ Q, lastAt Q units places = none → d'.entry? Q = d.entry? Q ∨
    d.entry? Q = none ∧ d'.entry? Q = some .folder
  made : ∀ a ∈ units, Artifact.IsMade d' (a.home root)
  settled : (∀ a ∈ units, Artifact.IsMade d (a.home root)) →
    ∀ Q, lastAt Q units places = none → d'.entry? Q = d.entry? Q

theorem writeAll_spec {units : List Artifact} {written : List Path} (h : d.Regular)
    (hw : writeAll root units d = (.ok written, d')) :
    ∃ places, StoredAll root units places d d' := by
  induction units generalizing d written with
  | nil =>
    simp only [writeAll, Prod.mk.injEq] at hw
    obtain ⟨-, rfl⟩ := hw
    exact ⟨[], h, rfl, fun _ hQ => hQ, .nil, by simp [lastAt], fun _ _ => .inl rfl, by simp,
      fun _ _ _ => rfl⟩
  | cons a rest ih =>
    rw [writeAll] at hw
    rcases ha : a.write d root with ⟨err | path, d₁⟩
    · simp [ha] at hw
    · rw [ha] at hw
      dsimp only at hw
      obtain ⟨-, P, hP⟩ := Artifact.write_spec h ha
      rcases hrest : writeAll root rest d₁ with ⟨err | paths, d₂⟩
      · simp [hrest] at hw
      · simp only [hrest, Prod.mk.injEq, Except.ok.injEq] at hw
        obtain ⟨-, rfl⟩ := hw
        obtain ⟨places, hall⟩ := ih hP.regular hrest
        refine ⟨P :: places, hall.regular, hall.current.trans hP.current,
          fun Q hQ => hall.folder Q (hP.folder hQ), .cons ?_ hall.place, ?_, ?_, ?_, ?_⟩
        · exact place?_mono hall.current hall.folder hP.place
        · intro Q b hb
          rw [lastAt, Option.or_eq_some_iff] at hb
          rcases hb with hb | ⟨hnone, hb⟩
          · obtain ⟨hfree, hfile⟩ := hall.file Q b hb
            by_cases hQ : Q = P
            · subst hQ
              have hx : d₁.isExecutable Q = d.isExecutable Q := by
                conv_lhs => rw [isExecutable, hP.file]
              exact ⟨hP.free, by rw [hfile, hx]⟩
            · rcases hP.other Q hQ with hq | ⟨-, hq⟩
              · have hx : d₁.isExecutable Q = d.isExecutable Q := by
                  rw [isExecutable, isExecutable, hq]
                exact ⟨hq ▸ hfree, by rw [hfile, hx]⟩
              · exact absurd hq hfree
          · by_cases hQ : P = Q
            · subst hQ
              rw [if_pos rfl, Option.some.injEq] at hb
              subst hb
              refine ⟨hP.free, ?_⟩
              rcases hall.other P hnone with hq | ⟨hq, -⟩
              · rw [hq, hP.file]
              · rw [hP.file] at hq
                cases hq
            · rw [if_neg hQ] at hb
              cases hb
        · intro Q hQ
          rw [lastAt, Option.or_eq_none_iff] at hQ
          have hne : Q ≠ P := by
            rintro rfl
            simp at hQ
          rcases hP.other Q hne with hq | ⟨hnone, hq⟩
          · rw [← hq]
            exact hall.other Q hQ.1
          · exact .inr ⟨hnone, hall.folder Q hq⟩
        · intro b hb
          rcases List.mem_cons.mp hb with rfl | hb
          · exact Artifact.isMade_mono hP.regular.sound hall.regular.sound hall.current hall.folder
              hP.made
          · exact hall.made b hb
        · intro hdone Q hQ
          rw [lastAt, Option.or_eq_none_iff] at hQ
          have hne : Q ≠ P := by
            rintro rfl
            simp at hQ
          have hrest₁ : ∀ b ∈ rest, Artifact.IsMade d₁ (b.home root) := fun b hb =>
            Artifact.isMade_mono h.sound hP.regular.sound hP.current (fun R => hP.folder)
              (hdone b (List.mem_cons_of_mem a hb))
          rw [hall.settled hrest₁ Q hQ.1, hP.settled (hdone a List.mem_cons_self) Q hne]

end Builtin

end LiveRules
