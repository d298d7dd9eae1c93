import LiveRules.Proofs.Compile.Batches
import LiveRules.Proofs.Compile.Twins

/-!
Compiling the same rules again. The second pass removes the units that the first one stored, finds
the same batch and stores it at the same places, so it leaves the disk as the first pass left it.
-/

namespace LiveRules.Pass

open Disk

variable {d d₀ d₁ d₂ d₃ d₄ e : Disk} {c : Config} {batch : List CheckedUnit} {P Q F : Place}
variable {n ext : String}

/-! ### Where a batch is stored -/

theorem place_of_lastAt {root : Path} {units : List Artifact} {places : List Place}
    {a : Artifact} (hplace : List.Forall₂
      (fun a P => d.place? (Naming.artifactPath root a.identifier) = .ok P) units places)
    (h : Builtin.lastAt Q units places = some a) :
    a ∈ units ∧ d.place? (Naming.artifactPath root a.identifier) = .ok Q := by
  induction hplace with
  | nil => simp [Builtin.lastAt] at h
  | @cons b R units places hb _ ih =>
    rw [Builtin.lastAt, Option.or_eq_some_iff] at h
    rcases h with h | ⟨-, h⟩
    · exact ⟨List.mem_cons_of_mem b (ih h).1, (ih h).2⟩
    · rw [Option.ite_none_right_eq_some, Option.some.injEq] at h
      obtain ⟨rfl, rfl⟩ := h
      exact ⟨List.mem_cons_self, hb⟩

/-- A unit lies at the place that its identifier spells. -/
theorem place_artifactPath {root : Path} {identifier : String} (h : '/' ∉ identifier.toList)
    (hp : d.place? (Naming.artifactPath root identifier) = .ok P) :
    ∃ F, d.reach root = .ok F ∧ P = F ++ Naming.names identifier := by
  rw [Naming.artifactPath_eq_below] at hp
  exact reach_below (Naming.isName_names h) Naming.names_ne_nil (place?_eq_ok_iff.mp hp).2

theorem isUnitName_of_place {root : Path} {identifier : String} (h : '/' ∉ identifier.toList)
    (hp : d.place? (Naming.artifactPath root identifier) = .ok P) : IsUnitName P := by
  obtain ⟨F, -, rfl⟩ := place_artifactPath h hp
  exact ⟨(Naming.splitIdentifier identifier).2, by
    rw [getLast?_append_of_ne Naming.names_ne_nil, Naming.names, List.getLast?_concat]⟩

/-- The units that a pass stores. -/
abbrev linkedUnits (c : Config) (d : Disk) (batch : List CheckedUnit) : List Artifact :=
  batch.map (Link.linked (.of d (rulesPath d c).1 batch))

/-- A pass that stored a batch, with the disk on which the folder of all units was made. -/
structure StoredBatch (c : Config) (batch : List CheckedUnit) (places : List Place)
    (d made d' : Disk) : Prop where
  grown : Grown d made
  regular : made.Regular
  settled : Artifact.IsMade d c.folders.ruleClasses → Same d made
  isMade : Artifact.IsMade made c.folders.ruleClasses
  stored : Builtin.StoredAll c.folders.ruleClasses (linkedUnits c d batch) places made d'
  named : ∀ Q a, Builtin.lastAt Q (linkedUnits c d batch) places = some a → IsUnitName Q

theorem Compiles.storedBatch (h : d.Regular) (hc : Compiles c d d₁ batch) :
    ∃ places made, StoredBatch c batch places d made d₁ := by
  obtain ⟨made, written, hmade, hwrite⟩ := hc.stored
  obtain ⟨hregular, hgrown, hisMade⟩ := makeFolders_spec h hmade
  obtain ⟨places, hstored⟩ := Builtin.writeAll_spec hregular hwrite
  refine ⟨places, made, hgrown, hregular, ?_, hisMade rfl, hstored, ?_⟩
  · intro hdone
    obtain ⟨made', hmade', -, hsame⟩ := makeFolders_of_isFolder h hdone
    rw [hmade] at hmade'
    cases hmade'
    exact hsame
  · intro Q a hQ
    obtain ⟨hmem, hplace⟩ := place_of_lastAt hstored.place hQ
    obtain ⟨p, hp, rfl⟩ := List.mem_map.mp hmem
    exact isUnitName_of_place (Builtin.no_slash_of_checkAll hc.checked p hp) hplace

/-- What a pass that stores a batch leaves at a place: the last unit that belongs there, or what
was there before, or a new folder. -/
theorem StoredBatch.place_cases {places : List Place} {made d' : Disk}
    (h : StoredBatch c batch places d made d') (Q : Place) :
    (∃ a, Builtin.lastAt Q (linkedUnits c d batch) places = some a ∧ IsUnitName Q ∧
        d.entry? Q ≠ some .folder ∧
        d'.entry? Q = some (.file (Text.encode a.text) (d.isExecutable Q))) ∨
      Builtin.lastAt Q (linkedUnits c d batch) places = none ∧
        (d'.entry? Q = d.entry? Q ∨ d.entry? Q = none ∧ d'.entry? Q = some .folder) := by
  cases hlast : Builtin.lastAt Q (linkedUnits c d batch) places with
  | some a =>
    obtain ⟨hfree, hfile⟩ := h.stored.file Q a hlast
    rcases h.grown.entry? Q with hq | ⟨-, hq⟩
    · refine .inl ⟨a, rfl, h.named Q a hlast, hq ▸ hfree, ?_⟩
      rw [hfile, isExecutable, hq, isExecutable]
    · exact absurd hq hfree
  | none =>
    refine .inr ⟨rfl, ?_⟩
    rcases h.grown.entry? Q with hq | ⟨hnone, hq⟩
    · rw [← hq]
      exact h.stored.other Q hlast
    · exact .inr ⟨hnone, h.stored.folder Q hq⟩

/-- A batch is stored beside everything else. -/
theorem StoredBatch.beside {places : List Place} {made d' : Disk}
    (h : StoredBatch c batch places d made d') : Beside d d' := by
  refine ⟨h.stored.current.trans h.grown.current, fun Q => ?_⟩
  rcases h.place_cases Q with ⟨a, -, hname, hfree, hfile⟩ | ⟨-, hq | hq⟩
  · exact .inr (.inr ⟨hname, hfree, by simp [hfile]⟩)
  · exact .inl hq
  · exact .inr (.inl hq)

/-! ### The second pass -/

/-- After a batch is stored and the units are removed again, a disk is beside what it was. -/
theorem beside_of_stored {places : List Place} {made : Disk} {k : Nat}
    (h : StoredBatch c batch places d₁ made d₂)
    (hr : removeUnits d₂ c.folders.ruleClasses = (.ok k, d₃)) : Beside d₁ d₃ := by
  obtain ⟨-, hsame, hentries⟩ := removeUnits_spec h.stored.regular hr
  refine ⟨hsame.current.trans h.beside.current, fun Q => ?_⟩
  rcases hentries Q with ⟨hQ, -⟩ | ⟨hQ, hplace, content, x, hx⟩
  · rw [hQ]
    exact h.beside.entry? Q
  · refine .inr (.inr ⟨hplace.isUnitName, ?_, by simp [hQ]⟩)
    intro hfolder
    rcases h.place_cases Q with ⟨a, -, -, hfree, -⟩ | ⟨-, hq | ⟨hnone, -⟩⟩
    · exact hfree hfolder
    · rw [← hq, hx] at hfolder
      cases hfolder
    · rw [hnone] at hfolder
      cases hfolder

theorem hasFile_of_readText {p : Path} {text : String} (h : d.Sound)
    (hp : d.readText p = .ok text) : ∃ P, d.place? p = .ok P ∧ d.HasFile P := by
  rw [readText] at hp
  cases hread : d.read p with
  | error err => simp [hread, bind, Except.bind] at hp
  | ok content =>
    obtain ⟨P, x, hP, hx⟩ := (read_eq_ok_iff h).mp hread
    exact ⟨P, hP, content, x, hx⟩

/-- Where there are sources, there are the same on a disk beside. -/
theorem collect_sources_eq {folder : Path} (hd : d.Regular) (he : e.Regular) (h : Beside d e)
    (hne : d.collect folder Naming.sourceExtension ≠ []) :
    e.collect folder Naming.sourceExtension = d.collect folder Naming.sourceExtension := by
  obtain ⟨q, hq⟩ := List.exists_mem_of_ne_nil _ hne
  obtain ⟨F, -, hF, hfolder, -⟩ := (mem_collect hd).mp hq
  refine (collect_eq hd he (fun G => ?_) fun G names hG hnames _ hext => ?_).symm
  · constructor
    · exact fun hG => ⟨h.place? hG.1, h.folder hG.2⟩
    · rintro ⟨hG, -⟩
      rw [h.place? hF] at hG
      cases hG
      exact ⟨hF, hfolder⟩
  · have hname := not_isUnitName (F := G) hnames hext (by decide)
    exact exists_congr fun content => exists_congr fun x => (h.file hname).symm

/-- The sources of rules are the same on a disk beside the one that they were read from. -/
theorem ruleSources_eq (hd : d.Regular) (he : e.Regular) (h : Beside d e)
    (hne : ruleSources d c ≠ [])
    (hread : ∀ s ∈ ruleSources d c, ∃ text, d.readText s.path = .ok text) :
    ruleSources e c = ruleSources d c ∧
      ∀ s ∈ ruleSources d c, e.readText s.path = d.readText s.path := by
  have hcollect : e.collect c.folders.rules Naming.sourceExtension =
      d.collect c.folders.rules Naming.sourceExtension :=
    collect_sources_eq hd he h (by simpa [ruleSources, Source.scanTree] using hne)
  have hsame : ∀ q ∈ d.collect c.folders.rules Naming.sourceExtension,
      e.read q = d.read q ∧ e.isThere q = d.isThere q := by
    intro q hq
    obtain ⟨text, htext⟩ := hread _ (List.mem_map_of_mem hq)
    obtain ⟨P, hP, hfile⟩ := hasFile_of_readText hd.sound htext
    obtain ⟨G, names, hG, -, hnames, hfile', -, hext, rfl⟩ := (mem_collect hd).mp hq
    obtain ⟨G', hG', rfl⟩ := place?_below (isNames_of_hasFile hd hfile') hnames
      (place?_eq_ok_iff.mp hG).1.ne_empty hP
    have hname := not_isUnitName (F := G') hnames hext (by decide)
    have hthere {x : Disk} (hx : x.Regular) (hxP : x.place? (below c.folders.rules names) =
        .ok (G' ++ names)) (hxf : x.HasFile (G' ++ names)) :
        x.isThere (below c.folders.rules names) = true := by
      obtain ⟨content, y, hy⟩ := hxf
      exact (isThere_iff hx.sound).mpr ⟨_, hxP, by rw [hy]; simp⟩
    refine ⟨h.read hd.sound he.sound hP hname hfile, ?_⟩
    rw [hthere hd hP hfile, hthere he (h.place? hP)]
    obtain ⟨content, y, hy⟩ := hfile
    exact ⟨content, y, (h.file hname).mpr hy⟩
  have hreadText (q : Path) (hq : q ∈ d.collect c.folders.rules Naming.sourceExtension) :
      e.readText q = d.readText q := by
    rw [readText, readText, (hsame q hq).1]
  constructor
  · rw [ruleSources, ruleSources, Source.scanTree, Source.scanTree, hcollect]
    refine List.map_congr_left fun q hq => ?_
    simp only [Source.scan, Source.identifierOf, ContentHash.ofFile, hreadText q hq,
      (hsame q hq).1, (hsame q hq).2]
  · intro s hs
    obtain ⟨q, hq, rfl⟩ := List.mem_map.mp hs
    exact hreadText q hq

/-! ### Packs on a disk beside another one -/

theorem readPack_mono {p : Path} {pack : Pack}
    (h : ∀ content, d.read p = .ok content → e.read p = .ok content)
    (hp : Pack.read d p = .ok pack) : Pack.read e p = .ok pack := by
  rw [Pack.read, readText] at hp ⊢
  cases hread : d.read p with
  | error err => simp [hread, bind, Except.bind] at hp
  | ok content =>
    rw [hread] at hp
    rw [h content hread]
    exact hp

theorem packAt_eq {p : Path} (h : ∀ pack, Pack.read e p = .ok pack ↔ Pack.read d p = .ok pack) :
    packAt e p = packAt d p := by
  rw [packAt, packAt]
  cases hd : Pack.read d p with
  | ok pack => rw [(h pack).mpr hd]
  | error err =>
    cases he : Pack.read e p with
    | ok pack =>
      rw [(h pack).mp he] at hd
      cases hd
    | error err => rfl

theorem runtimePack_eq
    (h : ∀ pack, Pack.read e c.runtimePack = .ok pack ↔ Pack.read d c.runtimePack = .ok pack) :
    runtimePack e c = runtimePack d c := by
  rw [runtimePack, runtimePack]
  cases hd : Pack.read d c.runtimePack with
  | ok pack => rw [(h pack).mpr hd]
  | error err =>
    cases he : Pack.read e c.runtimePack with
    | ok pack =>
      rw [(h pack).mp he] at hd
      cases hd
    | error err => rfl

/-- The name of a pack. -/
structure IsPackName (n : String) : Prop where
  isName : Path.IsName n
  extension : (Path.cutName n).2 = some Naming.packExtension

theorem IsPackName.not_isUnitName {p : Path} (h : IsPackName n)
    (hp : d.place? (p.join ⟨n⟩) = .ok P) : ¬IsUnitName P := by
  obtain ⟨F, -, -, -, rfl⟩ := (reach_join h.isName).mp (place?_eq_ok_iff.mp hp).2
  refine @Disk.not_isUnitName F [n] Naming.packExtension (by simp) ?_ (by decide)
  rw [endsWith, List.getLast?_singleton, Option.bind_some, h.extension, beq_self_eq_true]

theorem IsPackName.readPack {p : Path} {pack : Pack} (h : IsPackName n) (hd : d.Regular)
    (he : e.Regular) (hb : Beside d e) (hp : Pack.read d (p.join ⟨n⟩) = .ok pack) :
    Pack.read e (p.join ⟨n⟩) = .ok pack := by
  refine readPack_mono (fun content hread => ?_) hp
  obtain ⟨P, x, hP, hx⟩ := (read_eq_ok_iff hd.sound).mp hread
  rw [hb.read hd.sound he.sound hP (h.not_isUnitName hP) ⟨content, x, hx⟩, hread]

/-- Removing units makes no pack readable. -/
theorem IsPackName.readPack_of_removeUnits {p root : Path} {pack : Pack} {k : Nat}
    (h : IsPackName n) (hd : d.Regular) (hr : removeUnits d root = (.ok k, e))
    (hp : Pack.read e (p.join ⟨n⟩) = .ok pack) : Pack.read d (p.join ⟨n⟩) = .ok pack := by
  obtain ⟨he, hsame, -⟩ := removeUnits_spec hd hr
  refine readPack_mono (fun content hread => ?_) hp
  obtain ⟨P, x, hP, hx⟩ := (read_eq_ok_iff he.sound).mp hread
  refine (read_eq_ok_iff hd.sound).mpr ⟨P, x, hsame.place?.mp hP, ?_⟩
  exact ((beside_of_removeUnits hd hr).file (h.not_isUnitName hP)).mp hx

theorem isPackName_items : IsPackName Pack.itemsPackName :=
  ⟨⟨by decide, by decide, by decide, by decide⟩, by decide⟩

theorem isPackName_runtime : IsPackName Pack.runtimePackName :=
  ⟨⟨by decide, by decide, by decide, by decide⟩, by decide⟩

/-- A folder lists the same packs on a disk beside the one where it was found. -/
theorem listed_packs_eq {p : Path} (hd : d.Regular) (he : e.Regular) (h : Beside d e)
    (hF : d.place? p = .ok F) (hfolder : d.entry? F = some .folder) :
    e.listed p Naming.packExtension = d.listed p Naming.packExtension := by
  refine (listed_eq hd he (fun G => ?_) fun n hn hext => ?_).symm
  · constructor
    · exact fun hG => ⟨h.place? hG.1, h.folder hG.2⟩
    · rintro ⟨hG, -⟩
      rw [h.place? hF] at hG
      cases hG
      exact ⟨hF, hfolder⟩
  · have hpack : IsPackName n := by
      refine ⟨hn, ?_⟩
      rwa [Path.hasExtension, extension?_join hn, beq_iff_eq] at hext
    rw [isFile_iff hd.sound, isFile_iff he.sound]
    constructor
    · rintro ⟨P, content, x, hP, hx⟩
      exact ⟨P, content, x, h.place? hP, (h.file (hpack.not_isUnitName hP)).mpr hx⟩
    · rintro ⟨P, content, x, hP, hx⟩
      obtain ⟨hplain, hreach⟩ := place?_eq_ok_iff.mp hP
      obtain ⟨G, hG, -, hsize, rfl⟩ := (reach_join hn).mp hreach
      have hGF : F = G := by
        have hGp := (place?_eq_ok_iff.mp (h.place? hF)).2
        rw [hG] at hGp
        cases hGp
        rfl
      subst hGF
      refine ⟨F ++ [n], content, x, place?_eq_ok_iff.mpr ⟨hplain, ?_⟩,
        (h.file (hpack.not_isUnitName hP)).mp hx⟩
      exact (reach_join hn).mpr ⟨F, (place?_eq_ok_iff.mp hF).2, hfolder, hsize, rfl⟩

theorem packAt_eq_of_mem_listed {p q : Path} (hd : d.Regular) (he : e.Regular) (h : Beside d e)
    (hq : q ∈ d.listed p Naming.packExtension) : packAt e q = packAt d q := by
  obtain ⟨F, n, hF, -, hn, rfl, hfile, hext⟩ := (mem_listed hd).mp hq
  have hname := hd.tree.isName hn
  have hpack : IsPackName n := by
    refine ⟨hname, ?_⟩
    rwa [Path.hasExtension, extension?_join hname, beq_iff_eq] at hext
  obtain ⟨P, content, x, hP, hx⟩ := (isFile_iff hd.sound).mp hfile
  have hread := h.read hd.sound he.sound hP (hpack.not_isUnitName hP) ⟨content, x, hx⟩
  rw [packAt, packAt, Pack.read, Pack.read, readText, readText, hread]

/-- On a disk beside another one a folder with packs has the same packs, or some where there were
none. -/
theorem listed_beside (hd : d.Regular) (he : e.Regular) (h : Beside d e) (p : Path) :
    (e.listed p Naming.packExtension).flatMap (packAt e) =
        (d.listed p Naming.packExtension).flatMap (packAt d) ∨
      d.listed p Naming.packExtension = [] := by
  by_cases hfound : ∃ F, d.place? p = .ok F ∧ d.entry? F = some .folder
  · obtain ⟨F, hF, hfolder⟩ := hfound
    rw [listed_packs_eq hd he h hF hfolder]
    exact .inl (List.flatMap_congr fun q hq => packAt_eq_of_mem_listed hd he h hq)
  · refine .inr (List.eq_nil_iff_forall_not_mem.mpr fun q hq => ?_)
    obtain ⟨F, n, hF, hfolder, -⟩ := (mem_listed hd).mp hq
    exact hfound ⟨F, hF, hfolder⟩

/-- On a disk beside another one the class path of rules is the same, with further packs at its
end, if the packs of items and of built-in units are the same. -/
theorem rulesPath_beside (hd : d.Regular) (he : e.Regular) (h : Beside d e)
    (hitems : ∀ pack, Pack.read e c.itemsPack = .ok pack → Pack.read d c.itemsPack = .ok pack)
    (hruntime : ∀ pack, Pack.read e c.runtimePack = .ok pack →
      Pack.read d c.runtimePack = .ok pack) :
    ∃ more, (rulesPath e c).1 = (rulesPath d c).1 ++ more := by
  have hitemsAt : packAt e c.itemsPack = packAt d c.itemsPack :=
    packAt_eq fun pack => ⟨hitems pack, isPackName_items.readPack hd he h⟩
  have hruntimeAt : runtimePack e c = runtimePack d c :=
    runtimePack_eq fun pack => ⟨hruntime pack, isPackName_runtime.readPack hd he h⟩
  rw [fst_rulesPath hd.sound, fst_rulesPath he.sound, hitemsAt, hruntimeAt]
  rcases listed_beside hd he h c.folders.extlib with hsame | hnone
  · exact ⟨[], by rw [hsame, List.append_nil]⟩
  · rw [hnone, List.flatMap_nil, List.append_nil]
    exact ⟨_, rfl⟩

/-- The class path of rules loses no pack on a disk beside, unless another pack of built-in units
comes within reach. -/
theorem rulesPath_subset (hd : d.Regular) (he : e.Regular) (h : Beside d e)
    (hruntime : ∀ pack, Pack.read e c.runtimePack = .ok pack →
      Pack.read d c.runtimePack = .ok pack) : (rulesPath d c).1 ⊆ (rulesPath e c).1 := by
  have hitems : packAt d c.itemsPack ⊆ packAt e c.itemsPack := by
    rw [packAt]
    cases hread : Pack.read d c.itemsPack with
    | error err => exact List.nil_subset _
    | ok pack =>
      have hkept : Pack.read e c.itemsPack = .ok pack := isPackName_items.readPack hd he h hread
      rw [packAt, hkept]
      exact List.Subset.refl _
  have hruntimeAt : runtimePack e c = runtimePack d c :=
    runtimePack_eq fun pack => ⟨hruntime pack, isPackName_runtime.readPack hd he h⟩
  have hlisted : (d.listed c.folders.extlib Naming.packExtension).flatMap (packAt d) ⊆
      (e.listed c.folders.extlib Naming.packExtension).flatMap (packAt e) := by
    rcases listed_beside hd he h c.folders.extlib with hsame | hnone
    · rw [hsame]
      exact List.Subset.refl _
    · rw [hnone]
      exact List.nil_subset _
  rw [fst_rulesPath hd.sound, fst_rulesPath he.sound, hruntimeAt]
  refine List.append_subset.mpr ⟨List.append_subset.mpr ⟨?_, ?_⟩, ?_⟩
  · exact List.subset_append_of_subset_left _ (List.subset_append_of_subset_left _ hitems)
  · exact List.subset_append_of_subset_left _ (List.subset_append_right _ _)
  · exact List.subset_append_of_subset_right _ hlisted

/-! ### The second pass -/

/-- A batch that can be checked and linked is stored, if the pass comes to an outcome. -/
theorem compiles_of_links {o : Outcome} {d' : Disk} (hne : ruleSources d c ≠ [])
    (hchecked : Builtin.checkAll d (ruleSources d c) = (batch, []))
    (hlinks : Link.problems (.of d (rulesPath d c).1 batch) batch = [])
    (h : compileAfresh c d = (.ok o, d')) : o.diagnostics = [] ∧ Compiles c d d' batch := by
  rw [compileAfresh, if_neg (by simpa using hne)] at h
  dsimp only at h
  rw [Prod.mk.injEq] at h
  obtain ⟨batch', found, hcheck, hcases⟩ := Builtin.compile_cases d (ruleSources d c)
    (rulesPath d c).1 c.folders.ruleClasses
  rw [hchecked, Prod.mk.injEq] at hcheck
  obtain ⟨rfl, rfl⟩ := hcheck
  rcases hcases with ⟨hbad, -⟩ | ⟨-, ⟨err, houtcome⟩ | ⟨written, made, stored, hmade, hwrite,
    houtcome, hdisk⟩⟩
  · exact absurd hlinks hbad
  · rw [houtcome] at h
    cases h.1
  · rw [houtcome, hdisk, Except.ok.injEq] at h
    obtain ⟨rfl, rfl⟩ := h
    exact ⟨rfl, hne, hchecked, hlinks, made, written, hmade, hwrite⟩

/-- The units that a folder had before a pass lie where the pass leaves its units: whatever it
finds there afterwards, it has removed before. -/
def KeepsPlace (root : Path) (d d' : Disk) : Prop :=
  ∀ F names, d'.place? root = .ok F → NamesUnit names → d.HasFile (F ++ names) →
    d.place? root = .ok F

/-- No pack comes within reach by a pass. -/
def KeepsPacks (c : Config) (d d' : Disk) : Prop :=
  ∀ p ∈ [c.itemsPack, c.runtimePack], ∀ pack, Pack.read d' p = .ok pack → Pack.read d p = .ok pack

/-- A second pass does what the first one did. -/
theorem twins_of_again {k m : Nat} {o : Outcome} (h₀ : d₀.Regular)
    (hremoved : removeUnits d₀ c.folders.ruleClasses = (.ok k, d₁))
    (hcompiles : Compiles c d₁ d₂ batch)
    (hagain : removeUnits d₂ c.folders.ruleClasses = (.ok m, d₃))
    (hok : compileAfresh c d₃ = (.ok o, d₄))
    (hplace : KeepsPlace c.folders.ruleClasses d₀ d₂) (hpacks : KeepsPacks c d₀ d₂) :
    o.diagnostics = [] ∧ Twins d₂ d₄ := by
  obtain ⟨h₁, hsame₁, hentries₁⟩ := removeUnits_spec h₀ hremoved
  obtain ⟨places, made, hfirst⟩ := hcompiles.storedBatch h₁
  have h₂ := hfirst.stored.regular
  obtain ⟨h₃, hsame₃, hentries₃⟩ := removeUnits_spec h₂ hagain
  have hbeside := beside_of_stored hfirst hagain
  -- the second pass finds the sources of the first one
  obtain ⟨hsources, htexts⟩ := ruleSources_eq h₁ h₃ hbeside hcompiles.nonempty
    (Builtin.readable_of_checkAll hcompiles.checked)
  have hchecked : Builtin.checkAll d₃ (ruleSources d₃ c) = (batch, []) := by
    rw [hsources, Builtin.checkAll_eq_of_readText htexts, hcompiles.checked]
  -- and links them in the same way
  have hpack {n : String} (hn : IsPackName n) (p : Path) (hp : p.join ⟨n⟩ ∈
      [c.itemsPack, c.runtimePack]) (pack : Pack) (hread : Pack.read d₃ (p.join ⟨n⟩) = .ok pack) :
      Pack.read d₁ (p.join ⟨n⟩) = .ok pack :=
    hn.readPack h₀ h₁ (beside_of_removeUnits h₀ hremoved)
      (hpacks _ hp pack (hn.readPack_of_removeUnits h₂ hagain hread))
  obtain ⟨more, hpath⟩ := rulesPath_beside h₁ h₃ hbeside
    (hpack isPackName_items c.folders.jar (by simp [Config.itemsPack]))
    (hpack isPackName_runtime c.folders.jar (by simp [Config.runtimePack]))
  have hknows : (Link.Scope.of d₁ (rulesPath d₁ c).1 batch).Knows
      (.of d₃ (rulesPath d₃ c).1 batch) := by
    rw [hpath]
    exact Link.scope_knows (isPacked_rulesPath h₁.sound) batch
  have hunits : linkedUnits c d₃ batch = linkedUnits c d₁ batch :=
    Link.linked_eq (hknows.answers batch) hcompiles.links
      (Builtin.length_itemLines hcompiles.checked)
  obtain ⟨hclean, hcompiles'⟩ := compiles_of_links (hsources ▸ hcompiles.nonempty) hchecked
    (Link.problems_mono (hknows.answers batch) hcompiles.links) hok
  refine ⟨hclean, ?_⟩
  obtain ⟨places', made', hsecond⟩ := hcompiles'.storedBatch h₃
  have h₄ := hsecond.stored.regular
  -- all folders that the first pass made are still there
  have hmade : Artifact.IsMade d₃ c.folders.ruleClasses := by
    have hmade₂ := Artifact.isMade_mono hfirst.regular.sound h₂.sound hfirst.stored.current
      hfirst.stored.folder hfirst.isMade
    exact Artifact.isMade_mono h₂.sound h₃.sound hsame₃.current
      (fun Q hQ => (hsame₃.folder Q).mpr hQ) hmade₂
  have hsame := hsecond.settled hmade
  have hsettled : ∀ a ∈ linkedUnits c d₃ batch, Artifact.IsMade made' (a.home c.folders.ruleClasses) := by
    intro a ha
    rw [hunits] at ha
    refine Artifact.isMade_mono h₂.sound hsecond.regular.sound
      (hsame.current.trans hsame₃.current) (fun Q hQ => ?_) (hfirst.stored.made a ha)
    rw [hsame.entry?]
    exact (hsame₃.folder Q).mpr hQ
  have hplaces : places' = places := by
    have hkept (Q : Place) (hQ : d₂.entry? Q = some .folder) : d₄.entry? Q = some .folder := by
      refine hsecond.stored.folder Q ?_
      rw [hsame.entry?]
      exact (hsame₃.folder Q).mpr hQ
    have hcurrent : d₄.current = d₂.current :=
      (hsecond.stored.current.trans hsame.current).trans hsame₃.current
    have hp := hfirst.stored.place
    have hp' := hsecond.stored.place
    rw [hunits] at hp'
    exact List.right_unique_forall₂' (fun a P P' hP hP' => by
      rw [hP] at hP'
      cases hP'
      rfl) hp' (hp.imp fun a P hP => place?_mono hcurrent hkept hP)
  subst hplaces
  -- where the second pass removes a unit, the first one found none
  have hfresh (Q : Place) (hQ : d₂.UnitPlace c.folders.ruleClasses Q) : ¬d₁.HasFile Q := by
    obtain ⟨F, names, hF, hnames, rfl⟩ := hQ
    rintro ⟨content, x, hx⟩
    rcases hentries₁ (F ++ names) with ⟨hq, hnot⟩ | ⟨hq, -⟩
    · rw [hq] at hx
      exact hnot ⟨⟨F, names, hplace F names hF hnames ⟨content, x, hx⟩, hnames, rfl⟩, content, x, hx⟩
    · rw [hq] at hx
      cases hx
  refine ⟨h₂, h₄, (hsecond.stored.current.trans hsame.current).trans hsame₃.current,
    h₂.sound.troubles_eq h₄.sound, fun Q => ?_⟩
  cases hlast : Builtin.lastAt Q (linkedUnits c d₁ batch) places' with
  | some a =>
    have hlast' := hunits ▸ hlast
    rcases hfirst.place_cases Q with ⟨b, hb, -, -, hfile⟩ | ⟨hnone, -⟩
    · rcases hsecond.place_cases Q with ⟨b', hb', -, -, hfile'⟩ | ⟨hnone', -⟩
      · rw [hlast] at hb
        rw [hlast'] at hb'
        cases hb
        cases hb'
        have hx : d₃.isExecutable Q = d₁.isExecutable Q := by
          rcases hentries₃ Q with ⟨hq, -⟩ | ⟨hq, hunit, -⟩
          · conv_lhs => rw [isExecutable, hq, hfile]
          · rw [isExecutable, hq, isExecutable]
            cases hd₁ : d₁.entry? Q with
            | none => rfl
            | some entry =>
              cases entry with
              | folder => rfl
              | file content x => exact absurd ⟨content, x, hd₁⟩ (hfresh Q hunit)
        rw [hfile, hfile', hx]
      · rw [hlast'] at hnone'
        cases hnone'
    · rw [hlast] at hnone
      cases hnone
  | none =>
    have hlast' := hunits ▸ hlast
    rw [hsecond.stored.settled hsettled Q hlast', hsame.entry?]
    rcases hentries₃ Q with ⟨hq, -⟩ | ⟨-, hunit, content, x, hx⟩
    · exact hq
    · rcases hfirst.place_cases Q with ⟨b, hb, -⟩ | ⟨-, hq | ⟨-, hq⟩⟩
      · rw [hlast] at hb
        cases hb
      · rw [hq] at hx
        exact absurd ⟨content, x, hx⟩ (hfresh Q hunit)
      · rw [hq] at hx
        cases hx

end LiveRules.Pass
