import LiveRules.Proofs.Files.Endings
import LiveRules.Proofs.Json.Stored

/-!
Packs are stored as a whole or not at all. A pack is written to a temporary file, which lies in the
folder of the pack under another name, and then moved; whatever fails on the way, what was at the
path of the pack stays there. Making the folder of the pack may put a folder where nothing was, and
only for a path that leads up can that be the place of the pack itself.
-/

namespace LiveRules.Pack

open Disk

variable {p : Pack} {path folder q : Path} {d d₁ e : Disk} {P Q S T : Place} {n : String}
variable {r : Except OsError Unit} {content : Text.Bytes} {x : Bool}

/-! ### The temporary file -/

def temporaryNameOf (n : String) : String := (Path.cutName n).1 ++ "." ++ "pack.tmp"

theorem no_slash_stem (hn : Path.IsName n) : '/' ∉ (Path.cutName n).1.toList := by
  rw [Path.cutName]
  cases hcut : Text.splitLast? '.' n.toList with
  | none => exact hn.no_slash
  | some pieces =>
    obtain ⟨before, after⟩ := pieces
    dsimp only
    split
    · exact hn.no_slash
    · have hchars := (Text.eq_of_splitLast? hcut).1
      intro hslash
      rw [String.toList_ofList] at hslash
      exact hn.no_slash (by rw [hchars]; exact List.mem_append_left _ hslash)

theorem isName_temporaryNameOf (hn : Path.IsName n) : Path.IsName (temporaryNameOf n) := by
  have hlong : 4 < (temporaryNameOf n).toList.length := by
    simp only [temporaryNameOf, String.toList_append, List.length_append]
    have : "pack.tmp".toList.length = 8 := by decide
    omega
  have hne {s : String} (hs : s.toList.length ≤ 4) : temporaryNameOf n ≠ s := by
    rintro rfl
    omega
  refine ⟨hne (by decide), ?_, hne (by decide), hne (by decide)⟩
  have hword : '/' ∉ "pack.tmp".toList := by decide
  have hpoint : '/' ∉ ".".toList := by decide
  simp only [temporaryNameOf, String.toList_append, List.mem_append, not_or]
  exact ⟨⟨no_slash_stem hn, hpoint⟩, hword⟩

/-- No name is the temporary name made from it. -/
theorem temporaryNameOf_ne (n : String) : temporaryNameOf n ≠ n := by
  intro h
  have hstem : (Path.cutName n).1 ++ "." ++ "pack" ≠ "" := by
    intro hempty
    have hlength := congrArg (fun s : String => s.toList.length) hempty
    simp [String.toList_append] at hlength
  have hword : "pack.tmp" = "pack" ++ "." ++ "tmp" := by decide
  have hname : n = (Path.cutName n).1 ++ "." ++ "pack" ++ "." ++ "tmp" := by
    nth_rewrite 1 [← h]
    rw [temporaryNameOf, hword, ← String.append_assoc, ← String.append_assoc]
  -- cut at its last point, the name would have a longer stem
  have hcut := Path.cutName_append hstem (show '.' ∉ "tmp".toList by decide)
  rw [← hname] at hcut
  have hlength := congrArg (fun cut : String × Option String => cut.1.toList.length) hcut
  simp [String.toList_append] at hlength

/-- The temporary file is not written over the pack. -/
theorem place?_temporary_ne (ht : d.IsTree) (hp : d.place? path = .ok P)
    (hfree : d.entry? P ≠ some .folder) (hs : d.place? (temporary path) = .ok S) : S ≠ P := by
  cases hname : path.fileName? with
  | none => exact absurd (folder_of_no_fileName ht hname hp) hfree
  | some n =>
    have hn := (Path.exists_pieces_of_fileName? hname).1
    obtain ⟨F, rfl, rfl⟩ := place?_withExtension hname (isName_temporaryNameOf hn) hp hs
    intro heq
    exact temporaryNameOf_ne n (List.singleton_inj.mp (List.append_cancel_left heq))

/-! ### Making way -/

/-- Folders that were missing above a path were made, and nothing else happened. -/
structure MadeAbove (path : Path) (d e : Disk) : Prop where
  troubles : e.troubles = d.troubles
  regular : e.calm.Regular
  grown : Grown d.calm e.calm
  above : ∀ Q, e.entry? Q = d.entry? Q ∨
    ∃ above, path.parent? = some above ∧ ∃ q ∈ above.ancestors, e.place? q = .ok Q

namespace MadeAbove

theorem refl (hd : d.calm.Regular) : MadeAbove path d d :=
  ⟨rfl, hd, Grown.refl, fun _ => .inl rfl⟩

theorem place? (h : MadeAbove path d e) (hp : d.place? q = .ok P) : e.place? q = .ok P := by
  rw [← place?_calm] at hp ⊢
  exact h.grown.place? hp

/-- One more folder is made, or not. -/
theorem makeFolder {above : Path} (h : MadeAbove path d d₁) (hparent : path.parent? = some above)
    (hq : q ∈ above.ancestors) (hm : d₁.makeFolder q = (r, e)) : MadeAbove path d e := by
  have htried := makeFolder_tried hm
  have htroubles := htried.troubles.trans h.troubles
  have hgrows (hgrown : Grown d₁.calm e.calm) : ∀ Q, e.entry? Q = d₁.entry? Q →
      e.entry? Q = d.entry? Q ∨
        ∃ above, path.parent? = some above ∧ ∃ q ∈ above.ancestors, e.place? q = .ok Q := by
    intro Q hQ
    refine (h.above Q).imp hQ.trans ?_
    rintro ⟨above, habove, q, hmem, hplace⟩
    rw [← place?_calm] at hplace
    exact ⟨above, habove, q, hmem, place?_calm.symm.trans (hgrown.place? hplace)⟩
  rcases htried.cases with hcalm | ⟨-, -, -, -, -, rfl⟩
  · obtain ⟨he, ⟨-, P, hP, hnone, hsets⟩ | ⟨-, hsame⟩⟩ := makeFolder_spec h.regular hcalm
    · have hgrown := hsets.grown hnone
      refine ⟨htroubles, he, h.grown.trans hgrown, fun Q => ?_⟩
      by_cases hQ : Q = P
      · subst hQ
        exact .inr ⟨above, hparent, q, hq, place?_calm.symm.trans (hgrown.place? hP)⟩
      · exact hgrows hgrown Q ((hsets.entry? Q).trans (if_neg hQ))
    · exact ⟨htroubles, he, h.grown.trans hsame.grown, fun Q =>
        hgrows hsame.grown Q (hsame.entry? Q)⟩
  · have hsame : Same d₁.calm d₁.ticked.calm := same_ticked
    exact ⟨htroubles, h.regular.ticked, h.grown.trans hsame.grown, fun Q =>
      hgrows hsame.grown Q rfl⟩

end MadeAbove

theorem madeAbove_makeFolders (hd : d.calm.Regular)
    (hm : d.makeFolders (path.parent?.getD ⟨""⟩) = (r, e)) : MadeAbove path d e := by
  cases hparent : path.parent? with
  | none =>
    -- for an empty path no folder is made
    obtain ⟨above, habove⟩ := exists_ancestors ⟨""⟩
    rw [hparent, Option.getD_none, makeFolders, habove, makeChain, if_pos (by decide)] at hm
    cases hm
    exact .refl hd
  | some above =>
    rw [hparent, Option.getD_some, makeFolders] at hm
    refine makeChain_induct (motive := MadeAbove path d) (fun q hq _ _ _ hx hy => ?_) (.refl hd) hm
    exact hx.makeFolder hparent hq hy

theorem MadeAbove.tree (h : MadeAbove path d e) : e.IsTree := .of_calm h.regular.tree

/-! ### Saving -/

/-- A pack is stored at `T`, and its temporary file at `S` is gone. -/
structure Put (p : Pack) (S T : Place) (d e : Disk) : Prop where
  current : e.current = d.current
  apart : S ≠ T
  temporary : d.entry? S ≠ some .folder
  free : d.entry? T ≠ some .folder
  entry? : ∃ x, ∀ Q, e.entry? Q =
    if Q = T then some (.file (Text.encode p.text) x) else if Q = S then none else d.entry? Q

/-- Folders above the pack are made. Then it is stored, or whatever fails nothing else than its
temporary file is changed. -/
theorem save_cases {s : Except PackError Unit} (hd : d.calm.Regular) (hs : p.save d path = (s, e)) :
    ∃ d₁, MadeAbove path d d₁ ∧
      ((∃ err, s = .error err) ∧ (Same d₁.calm e.calm ∨
          ∃ S content x, d₁.place? (temporary path) = .ok S ∧ d₁.entry? S ≠ some .folder ∧
            Sets S (some (.file content x)) d₁.calm e.calm) ∨
        s = .ok () ∧ ∃ S T, d₁.place? (temporary path) = .ok S ∧ d₁.place? path = .ok T ∧
          Put p S T d₁ e) := by
  unfold save at hs
  rcases hmake : d.makeFolders (path.parent?.getD ⟨""⟩) with ⟨made, d₁⟩
  have hmade := madeAbove_makeFolders hd hmake
  refine ⟨d₁, hmade, ?_⟩
  rw [hmake] at hs
  rcases made with err | ⟨⟩
  · cases hs
    exact .inl ⟨⟨_, rfl⟩, .inl Same.refl⟩
  dsimp only at hs
  rcases hwrite : d₁.write (temporary path) (Text.encode p.text) with ⟨written, d₂⟩
  obtain ⟨-, h₂, hwritten⟩ := sets_write hmade.regular hwrite
  rw [hwrite] at hs
  rcases hwritten with ⟨herr, hsame⟩ | ⟨S, k, x, hS, hfree, hsets, hcontent⟩
  · rcases written with err | ⟨⟩
    · cases hs
      exact .inl ⟨⟨_, rfl⟩, .inl hsame⟩
    · exact absurd rfl herr
  rcases written with err | ⟨⟩
  · cases hs
    exact .inl ⟨⟨_, rfl⟩, .inr ⟨S, _, x, hS, hfree, hsets⟩⟩
  rw [hcontent rfl] at hsets
  dsimp only at hs
  rcases hmove : d₂.move (temporary path) path with ⟨moved, d₃⟩
  rw [hmove] at hs
  rcases moved with err | ⟨⟩
  · cases hs
    have hsame := same_of_move_error h₂ hmove
    exact .inl ⟨⟨_, rfl⟩, .inr ⟨S, _, x, hS, hfree, hsets.trans_same hsame⟩⟩
  · cases hs
    obtain ⟨S', T, hS', hT, hmoved⟩ := moved_of_move hmove
    -- a file more or less does not matter to where paths lead
    have hplace {q : Path} {P : Place} (hq : d₂.place? q = .ok P) : d₁.place? q = .ok P := by
      rw [← place?_calm] at hq ⊢
      exact (hsets.sameFolders hfree (by simp)).place?.mp hq
    obtain rfl : S = S' := Except.ok.inj (hS.symm.trans (hplace hS'))
    have hfreeT : d₁.entry? T ≠ some .folder := fun hno =>
      hmoved.target (hsets.folder hfree hno)
    have hne := place?_temporary_ne hmade.tree (hplace hT) hfreeT hS
    refine .inr ⟨rfl, S, T, hS, hplace hT, hmoved.current.trans hsets.current, hne, hfree, hfreeT,
      x, fun Q => ?_⟩
    have hfile : d₂.entry? S = some (.file (Text.encode p.text) x) :=
      (hsets.entry? S).trans (if_pos rfl)
    rw [hmoved.entry?, hfile]
    by_cases hQ : Q = S
    · rw [if_pos hQ, if_pos hQ]
    · have hother : d₂.entry? Q = d₁.entry? Q := (hsets.entry? Q).trans (if_neg hQ)
      rw [if_neg hQ, if_neg hQ, hother]

/-! ### Packing a folder -/

/-- The units that are read at paths in turn. -/
theorem forall₂_of_readAll {paths : List Path} {units : List Artifact}
    (h : readAll d paths = .ok units) :
    List.Forall₂ (fun q a => Artifact.read d q = .ok a) paths units := by
  induction paths generalizing units with
  | nil =>
    cases h
    exact .nil
  | cons q rest ih =>
    rw [readAll] at h
    cases hread : Artifact.read d q with
    | error err =>
      rw [hread] at h
      cases h
    | ok a =>
      rw [hread] at h
      cases hrest : readAll d rest with
      | error err =>
        rw [hrest] at h
        cases h
      | ok more =>
        rw [hrest] at h
        cases h
        exact .cons hread (ih hrest)

theorem get?_reread (p : Pack) (k : String) : p.reread.get? k = (p.get? k).map Artifact.reread := by
  rw [get?, get?, reread, List.find?_map, Option.map_map, Option.map_map]
  rfl

/-- A pack has as many units as there are identifiers. -/
theorem length_ofUnits_eq (units : List Artifact) :
    (ofUnits units).units.length = (units.map (·.identifier)).dedup.length := by
  have hkeys : ((ofUnits units).units.map (·.1)).Perm (units.map (·.identifier)).dedup := by
    refine (List.perm_ext_iff_of_nodup (increasing_ofUnits units).nodup_keys
      (List.nodup_dedup _)).mpr fun k => ?_
    rw [List.mem_dedup, List.mem_map, List.mem_map]
    constructor
    · rintro ⟨x, hx, rfl⟩
      obtain ⟨a, ha, heq⟩ := List.mem_map.mp (mem_of_mem_keyed hx)
      exact ⟨a, ha, congrArg Prod.fst heq⟩
    · rintro ⟨a, ha, rfl⟩
      have hsome : ((ofUnits units).get? a.identifier).isSome = true := by
        rw [get?_ofUnits, List.getLast?_isSome]
        exact List.ne_nil_of_mem (List.mem_filter.mpr ⟨ha, beq_self_eq_true _⟩)
      obtain ⟨b, hb⟩ := Option.isSome_iff_exists.mp hsome
      exact ⟨(a.identifier, b), (Increasing.find?_eq (increasing_ofUnits units)).mp hb, rfl⟩
  rw [← hkeys.length_eq, List.length_map]

/-- The units of a folder have been packed, `n` of them: the last unit of each identifier is in the
pack, with the thresholds that come back from their spelling. Nothing is left of the temporary file,
and nothing else has changed but that folders were made. -/
structure Packs (folder path : Path) (n : Nat) (d e : Disk) : Prop where
  units : ∃ units, List.Forall₂ (fun q a => Artifact.read d q = .ok a)
      (d.collect folder Naming.artifactExtension) units ∧
    n = (units.map (·.identifier)).dedup.length ∧
    (e.CanRead → ∃ p, read e path = .ok p ∧ p.units.length = n ∧ Increasing p.units ∧
      ∀ k, p.get? k = (units.filter fun a => a.identifier == k).getLast?.map Artifact.reread)
  places : ∃ S T, S ≠ T ∧ e.place? (temporary path) = .ok S ∧ e.entry? S = none ∧
    e.place? path = .ok T ∧ e.HasFile T ∧ ∀ Q, Q ≠ S → Q ≠ T →
      e.entry? Q = d.entry? Q ∨ (d.entry? Q = none ∧ e.entry? Q = some .folder)

/-- The path of a pack leads to what it led to. If it led to nothing, the place that it leads to now
is as it was, or else the path leads up and a folder was made there. No other place has changed but
that of the temporary file, and folders were made. -/
structure Spares (path : Path) (d e : Disk) : Prop where
  there : ∀ P x, d.place? path = .ok P → d.entry? P = some x →
    e.place? path = .ok P ∧ e.entry? P = some x
  pack : ∀ P, e.place? path = .ok P → e.entry? P = d.entry? P ∨
    (d.entry? P = none ∧ e.entry? P = some .folder ∧ ['.', '.'] ∈ path.pieces)
  other : ∀ Q, e.place? (temporary path) ≠ .ok Q →
    e.entry? Q = d.entry? Q ∨ (d.entry? Q = none ∧ e.entry? Q = some .folder)

/-- Making folders above a pack keeps what is at its path. -/
theorem MadeAbove.spares (h : MadeAbove path d e) : Spares path d e where
  there P x hP hx := ⟨h.place? hP, h.grown.keeps hx⟩
  pack P hP := by
    rcases h.grown.entry? P with hsame | ⟨hnone, hfolder⟩
    · exact .inl hsame
    · by_cases hup : ['.', '.'] ∈ path.pieces
      · exact .inr ⟨hnone, hfolder, hup⟩
      · rcases h.above P with hsame | ⟨above, hparent, q, hq, hQ⟩
        · exact .inl hsame
        · exact absurd rfl (place?_ne_above hup hparent hq hP hQ)
  other Q _ := h.grown.entry? Q

/-- A change of the temporary file alone keeps what is at the path of the pack. -/
theorem Spares.of_temporary (h : Spares path d d₁) (hsame : SameFolders d₁ e)
    (hpack : ∀ P, d₁.place? path = .ok P → e.entry? P = d₁.entry? P)
    (hother : ∀ Q, d₁.place? (temporary path) ≠ .ok Q → e.entry? Q = d₁.entry? Q) :
    Spares path d e where
  there P x hP hx := by
    obtain ⟨hP₁, hx₁⟩ := h.there P x hP hx
    exact ⟨hsame.place?.mpr hP₁, (hpack P hP₁).trans hx₁⟩
  pack P hP := by
    have hP₁ := hsame.place?.mp hP
    rw [hpack P hP₁]
    exact h.pack P hP₁
  other Q hQ := by
    have hQ₁ := fun hno => hQ (hsame.place?.mpr hno)
    rw [hother Q hQ₁]
    exact h.other Q hQ₁

theorem spares_of_save {err : PackError} (hd : d.calm.Regular)
    (hs : p.save d path = (.error err, e)) : Spares path d e := by
  obtain ⟨d₁, hmade, ⟨-, hsame | ⟨S, content, x, hS, hfree, hsets⟩⟩ | ⟨hno, -⟩⟩ := save_cases hd hs
  · exact hmade.spares.of_temporary ⟨hsame.current, hsame.sameFolders.folder⟩
      (fun P _ => hsame.entry? P) fun Q _ => hsame.entry? Q
  · have hfolders := hsets.sameFolders hfree (by simp)
    refine hmade.spares.of_temporary ⟨hfolders.current, hfolders.folder⟩ (fun P hP => ?_)
      fun Q hQ => ?_
    · have hne : P ≠ S := by
        rintro rfl
        exact place?_temporary_ne hmade.tree hP hfree hS rfl
      exact (hsets.entry? P).trans (if_neg hne)
    · have hne : Q ≠ S := by
        rintro rfl
        exact hQ hS
      exact (hsets.entry? Q).trans (if_neg hne)
  · cases hno

theorem packs_of_save {units : List Artifact} (hd : d.calm.Regular)
    (hread : readAll d (d.collect folder Naming.artifactExtension) = .ok units)
    (hs : (ofUnits units).save d path = (.ok (), e)) :
    Packs folder path (ofUnits units).units.length d e where
  units := by
    refine ⟨units, forall₂_of_readAll hread, length_ofUnits_eq units, fun hcan => ?_⟩
    have hkeys := increasing_ofUnits units
    refine ⟨_, read_of_save hkeys hs hcan, ?_, hkeys.map Artifact.reread, fun k => ?_⟩
    · rw [reread, List.length_map]
    · rw [get?_reread, get?_ofUnits]
  places := by
    obtain ⟨d₁, hmade, ⟨⟨err, hno⟩, -⟩ | ⟨-, S, T, hS, hT, hput⟩⟩ := save_cases hd hs
    · cases hno
    obtain ⟨x, hentry⟩ := hput.entry?
    have hfolder (Q : Place) (hQ : d₁.entry? Q = some .folder) : e.entry? Q = some .folder := by
      have hneT : Q ≠ T := fun heq => hput.free (heq ▸ hQ)
      have hneS : Q ≠ S := fun heq => hput.temporary (heq ▸ hQ)
      rw [hentry, if_neg hneT, if_neg hneS, hQ]
    refine ⟨S, T, hput.apart, place?_mono hput.current hfolder hS, ?_,
      place?_mono hput.current hfolder hT, ⟨_, x, (hentry T).trans (if_pos rfl)⟩, ?_⟩
    · rw [hentry, if_neg hput.apart, if_pos rfl]
    · intro Q hQS hQT
      rw [hentry, if_neg hQT, if_neg hQS]
      exact hmade.grown.entry? Q

/-- Packing stores all units that were read, or leaves the pack as it was. -/
theorem packFolder_atomic {s : Except PackError Nat} (hd : d.IsTree)
    (h : packFolder d folder path = (s, e)) :
    (∀ n, s = .ok n → Packs folder path n d e) ∧ (∀ err, s = .error err → Spares path d e) := by
  rw [packFolder] at h
  cases hread : readAll d (d.collect folder Naming.artifactExtension) with
  | error cause =>
    rw [hread] at h
    cases h
    exact ⟨fun n hno => (by cases hno), fun _ _ => (MadeAbove.refl hd.regular_calm).spares⟩
  | ok units =>
    rw [hread] at h
    dsimp only at h
    rcases hs : (ofUnits units).save d path with ⟨saved, d'⟩
    rw [hs] at h
    cases saved with
    | error cause =>
      cases h
      exact ⟨fun n hno => (by cases hno), fun _ _ => spares_of_save hd.regular_calm hs⟩
    | ok =>
      cases h
      refine ⟨fun n hn => ?_, fun err hno => (by cases hno)⟩
      cases hn
      exact packs_of_save hd.regular_calm hread hs

/-- A rule class without methods. -/
def plainUnit : Artifact where
  identifier := "p.A"
  kind := .rule
  isAbstract := false
  constructible := true

/-- The unit, an old pack, and what is left of an attempt to make a new one. -/
def unpacked : Disk where
  entries := [
    (["units"], .folder),
    (["units", "A.unit"], .file (Text.encode plainUnit.text) false),
    (["jar"], .folder),
    (["jar", "items.pack"], .file (Text.encode "old") false),
    (["jar", "items.pack.tmp"], .file (Text.encode "half") false)]

/-- The same, but files cannot be moved. -/
def stuck : Disk :=
  { unpacked with
    troubles := fun _ op _ => if op = .move then some ⟨.accessDenied, none⟩ else none }

theorem packFolder_atomic_stuck :
    Packs ⟨"units"⟩ ⟨"jar/items.pack"⟩ 1 unpacked
        (packFolder unpacked ⟨"units"⟩ ⟨"jar/items.pack"⟩).2 ∧
      Disk.entry? (packFolder stuck ⟨"classes"⟩ ⟨"jar/items.pack"⟩).2 ["jar", "items.pack"] =
        some (.file (Text.encode "old") false) := by
  have htree : unpacked.IsTree := .of_entries (by decide +kernel) (by decide +kernel)
  have htree' : stuck.IsTree := .of_entries (by decide +kernel) (by decide +kernel)
  have hworks : (packFolder unpacked ⟨"units"⟩ ⟨"jar/items.pack"⟩).1 = .ok 1 := by decide +kernel
  have hfails : (packFolder stuck ⟨"classes"⟩ ⟨"jar/items.pack"⟩).1 =
      .error (.io ⟨"jar/items.pack"⟩ .accessDenied) := by decide +kernel
  have hpacks := (packFolder_atomic htree
    (Prod.mk.eta (p := packFolder unpacked ⟨"units"⟩ ⟨"jar/items.pack"⟩)).symm).1 1 hworks
  have hspares := (packFolder_atomic htree'
    (Prod.mk.eta (p := packFolder stuck ⟨"classes"⟩ ⟨"jar/items.pack"⟩)).symm).2 _ hfails
  exact ⟨hpacks, (hspares.there ["jar", "items.pack"] _ (by decide) (by decide)).2⟩

/-- A path that leads through the name that it ends in. -/
def detour : Path := ⟨"items.pack/../items.pack"⟩

/-- On an empty disk the way through its own name puts a folder where the pack should be. -/
theorem packFolder_leaves_folder :
    Disk.look { entries := [] } detour = .error .notFound ∧
    (packFolder { entries := [] } ⟨"items"⟩ detour).1 = .error (.io detour .isFolder) ∧
    (packFolder { entries := [] } ⟨"items"⟩ detour).2.look detour = .ok .folder := by
  decide +kernel

end LiveRules.Pack
