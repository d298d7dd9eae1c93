import LiveRules.Proofs.Item.Held
import LiveRules.Proofs.Item.Packing
import LiveRules.Proofs.Json.Beginnings

/-!
Units and packs where operations fail. A pass over the stubs that succeeds leaves every stub with its
unit, and a packing that succeeds leaves the pack of these units; whatever fails on the way, the
stubs and the units stay in order. A unit whose writing was broken off keeps its place, and as it
cannot be read as another unit, it is the unit of its stub or nothing is packed.
-/

namespace LiveRules

open Disk

variable {c : Config} {I : Place} {d d' e : Disk} {A : Place → Prop}
variable {kept : String → Option Item} {item : Item} {items : List Item} {sources : List Source}

namespace HasStubs

variable {name : String} {i : Item}

theorem read (h : HasStubs c I kept d) (hi : kept name = some i) :
    d.calm.read (Stub.path c name) = .ok (Text.encode (Stub.text c.itemsNamespace i)) := by
  obtain ⟨x, hx⟩ := h.stub name i hi
  exact (read_eq_ok_iff sound_calm).mpr ⟨_, x, place?_calm.trans (h.path name i hi), hx⟩

/-- Where a stub lies, its folder is there. -/
theorem place?_stubFolder (h : HasStubs c I kept d) (hs : Site c I d) (hi : kept name = some i) :
    d.place? c.stubFolder = .ok (I ++ Naming.segments c.itemsNamespace) ∧
      d.entry? (I ++ Naming.segments c.itemsNamespace) = some .folder := by
  have hfolder : c.stubFolder.text ≠ "" := by
    rw [Config.stubFolder, Naming.folder_eq_below]
    exact text_below_ne_empty (Stub.isName_segments hs.base) hs.items
  obtain ⟨F, hF, hentry, -⟩ :=
    place?_join (Stub.isName_fileName (h.valid hi)) hfolder (h.path name i hi)
  obtain rfl : F = I ++ Naming.segments c.itemsNamespace := by
    rw [eq_aim hF, Stub.aim_stubFolder hs.base, hs.aim]
  exact ⟨hF, hentry⟩

/-- Where a stub lies, the folder of the items is there. -/
theorem place?_items (h : HasStubs c I kept d) (hs : Site c I d) (hi : kept name = some i) :
    d.place? c.folders.items = .ok I := by
  obtain ⟨hfolder, -⟩ := h.place?_stubFolder hs hi
  by_cases hnil : Naming.segments c.itemsNamespace = []
  · rwa [Config.stubFolder, Naming.folder_eq_below, hnil, List.append_nil] at hfolder
  · rw [Config.stubFolder, Naming.folder_eq_below] at hfolder
    obtain ⟨F, hF, -⟩ :=
      place?_below (Stub.isName_segments hs.base) hnil hs.items hfolder
    rw [hF, eq_aim hF, hs.aim]

/-- The stub of an item that is kept is listed. -/
theorem mem_listed (h : HasStubs c I kept d) (hs : Site c I d) (hi : kept name = some i) :
    Stub.path c name ∈ d.listed c.stubFolder Naming.sourceExtension := by
  obtain ⟨hplace, hfolder⟩ := h.place?_stubFolder hs hi
  obtain ⟨x, hx⟩ := h.stub name i hi
  rw [(hs.shows.mono (List.prefix_append I _)).listed_eq hs.regular hplace]
  refine (Disk.mem_listed hs.regular).mpr
    ⟨_, Stub.fileName name, place?_calm.trans hplace, hfolder, ?_, rfl, ?_, ?_⟩
  · rw [List.append_assoc, entry?_calm]
    exact (congrArg (· ≠ none) hx).mpr (Option.some_ne_none _)
  · exact (isFile_iff sound_calm).mpr
      ⟨_, _, x, place?_calm.trans (h.path name i hi), hx⟩
  · rw [Path.hasExtension, Stub.path, extension?_join (Stub.isName_fileName (h.valid hi)),
      Stub.cutName_fileName]
    exact beq_self_eq_true _

end HasStubs

/-- A unit that is listed by its stem lies beside its stub. -/
theorem Site.hasFile_of_mem_stems {name : String} (h : Site c I d)
    (hmem : Stub.unitName name ∈ (d.listed c.stubFolder Naming.artifactExtension).map Path.stem) :
    d.HasFile (Stub.unitPlace c I name) := by
  obtain ⟨q, hq, hstem⟩ := List.mem_map.mp hmem
  obtain ⟨file, hfile, hcut, rfl, hplace⟩ := h.exists_of_mem_listed hq
  rw [Path.stem, Naming.stem?_join hfile] at hstem
  obtain rfl : file = Stub.unitFile name := by
    rw [Path.eq_of_cutName hcut]
    exact congrArg (· ++ "." ++ Naming.artifactExtension) hstem
  exact hplace

/-! ### Storing units -/

/-- Between two disks units were stored beside their stubs, each of them or a beginning of it. -/
structure Refills (c : Config) (I : Place) (kept : String → Option Item) (d e : Disk) : Prop where
  leaves : Leaves (fun Q => ¬AmongItems I Q) d e
  stubs : HasStubs c I kept e
  stays : ∀ Q, d.HasFile Q → e.HasFile Q

theorem Disk.Leaves.refills (hl : Leaves (fun _ => True) d e) (h : HasStubs c I kept d) :
    Refills c I kept d e where
  leaves := hl.mono fun _ _ => trivial
  stubs := h.leaves (hl.mono fun _ _ => trivial)
  stays _ := (hl.hasFile_iff trivial).mpr

theorem Refills.trans (h : Refills c I kept d d') (h' : Refills c I kept d' e) :
    Refills c I kept d e :=
  ⟨h.leaves.trans h'.leaves, h'.stubs, fun Q hQ => h'.stays Q (h.stays Q hQ)⟩

/-- The units of some items lie on a disk, each of them or a beginning of it. -/
def HasUnits (c : Config) (I : Place) (items : List Item) (d : Disk) : Prop :=
  ∀ i ∈ items, d.HasFile (Stub.unitPlace c I i.name)

/-- Whatever fails while a unit is stored, a beginning of it is stored or nothing is, and if it works
the unit has a file. -/
theorem Stub.store_refills {r : Except ArtifactError Path} (hs : Site c I d)
    (h : HasStubs c I kept d) (hi : kept item.name = some item)
    (hw : (unit c.itemsNamespace item).write d c.folders.items = (r, e)) :
    Refills c I kept d e ∧ ((∃ path, r = .ok path) → HasUnits c I [item] e) := by
  obtain ⟨made, d₁, hmake, hcases⟩ := Artifact.write_cases hw
  rw [show Naming.artifactPath c.folders.items (unit c.itemsNamespace item).identifier =
    unitPath c item.name from rfl] at hmake hcases
  have hmade : Leaves (fun _ => True) d d₁ := leaves_makeFolders hs.regular hmake
  rcases hcases with ⟨-, ⟨err, rfl⟩, rfl⟩ | ⟨-, written, hwrite, hcases⟩
  · exact ⟨hmade.refills h, by rintro ⟨_, ⟨⟩⟩⟩
  have hs₁ := hs.leaves hmade
  have h₁ := (hmade.refills h).stubs
  obtain ⟨hother, hstored⟩ := write_cases hs₁.regular hwrite
  rw [hs₁.aim_unitPath (h.valid hi)] at hother hstored
  have hrefills : Refills c I kept d₁ e := by
    refine ⟨hother.mono fun Q hQ heq => hQ (heq ▸ among_unitPlace c I item.name),
      h₁.store hi hother fun content x hx => ?_, fun Q hQ => ?_⟩ <;>
      rcases hstored with ⟨-, hsame⟩ | ⟨-, -, k, y, hy, -⟩
    · exact h₁.unit _ item content x hi ((hsame.entry? _).symm.trans hx)
    · obtain ⟨rfl, -⟩ := Entry.file.inj (Option.some.inj (hx.symm.trans hy))
      exact ⟨k, rfl⟩
    · obtain ⟨content, x, hx⟩ := hQ
      exact ⟨content, x, (hsame.entry? Q).trans hx⟩
    · by_cases hplace : Q = unitPlace c I item.name
      · exact ⟨_, y, hplace ▸ hy⟩
      · exact (hother.hasFile_iff hplace).mpr hQ
  refine ⟨(hmade.refills h).trans hrefills, ?_⟩
  rintro ⟨path, rfl⟩ i hmem
  obtain rfl := List.mem_singleton.mp hmem
  rcases hstored with ⟨hfailed, -⟩ | ⟨-, -, k, y, hy, -⟩
  · rcases hcases with ⟨hok, -⟩ | ⟨-, err, hno⟩
    · exact absurd hok hfailed
    · cases hno
  · exact ⟨_, y, hy⟩

/-- Whatever fails while units are stored, the stubs and units stay in order. -/
theorem Stub.storeAll_refills {r : Except CompileError (List Path)} (hs : Site c I d)
    (h : HasStubs c I kept d) (hitems : ∀ i ∈ items, kept i.name = some i)
    (hw : Builtin.writeAll c.folders.items (items.map (Stub.unit c.itemsNamespace)) d = (r, e)) :
    Refills c I kept d e ∧ ((∃ paths, r = .ok paths) → HasUnits c I items e) := by
  induction items generalizing d e r with
  | nil =>
    cases hw
    exact ⟨(Leaves.refl hs.regular).refills h, fun _ => by simp [HasUnits]⟩
  | cons i items ih =>
    rw [List.map_cons, Builtin.writeAll] at hw
    rcases ha : (Stub.unit c.itemsNamespace i).write d c.folders.items with ⟨written, d₁⟩
    obtain ⟨hfirst, hunit⟩ := store_refills hs h (hitems i List.mem_cons_self) ha
    rw [ha] at hw
    rcases written with err | path
    · cases hw
      exact ⟨hfirst, by rintro ⟨_, ⟨⟩⟩⟩
    dsimp only at hw
    rcases hrest : Builtin.writeAll c.folders.items (items.map (Stub.unit c.itemsNamespace)) d₁
      with ⟨more, d₂⟩
    obtain ⟨hmore, hunits⟩ := ih (hs.leaves hfirst.leaves) hfirst.stubs
      (fun j hj => hitems j (List.mem_cons_of_mem i hj)) hrest
    rw [hrest] at hw
    rcases more with err | paths
    · cases hw
      exact ⟨hfirst.trans hmore, by rintro ⟨_, ⟨⟩⟩⟩
    · cases hw
      refine ⟨hfirst.trans hmore, fun _ j hj => ?_⟩
      rcases List.mem_cons.mp hj with rfl | hj
      · exact hmore.stays _ (hunit ⟨path, rfl⟩ j (List.mem_singleton_self j))
      · exact hunits ⟨paths, rfl⟩ j hj

/-! ### Passes over stubs -/

/-- What passes its checks where reading may fail passes them where it does not. -/
theorem Builtin.checkAll_calm {batch : List CheckedUnit} (h : checkAll d sources = (batch, [])) :
    checkAll d.calm sources = (batch, []) := by
  rw [checkAll_eq_of_readText fun s hs => ?_, h]
  obtain ⟨text, htext⟩ := readable_of_checkAll h s hs
  rw [htext, readText_calm htext]

/-- Stubs that compile get their units, and those that do not stay as they are. -/
theorem LeadTo.compile_refills (cp : ClassPath)
    (hitems : LeadTo kept (Stub.path c) (sources.map Source.path) items) (hs : Site c I d)
    (h : HasStubs c I kept d) :
    Refills c I kept d (Builtin.compile d sources cp c.folders.items).disk ∧
      ∀ o, (Builtin.compile d sources cp c.folders.items).outcome = .ok o → o.succeeded = true →
        HasUnits c I items (Builtin.compile d sources cp c.folders.items).disk := by
  rcases hcheck : Builtin.checkAll d sources with ⟨batch, found⟩
  simp only [Builtin.compile, hcheck]
  cases hall : found ++ Link.problems (.of d cp batch) batch with
  | cons x rest =>
    refine ⟨(Leaves.refl hs.regular).refills h, fun o ho hsucceeded => ?_⟩
    cases ho
    have hsorted : (x :: rest).mergeSort Diagnostic.le = [] := List.isEmpty_iff.mp hsucceeded
    have hlength : ((x :: rest).mergeSort Diagnostic.le).length = (x :: rest).length :=
      List.length_mergeSort _
    rw [hsorted] at hlength
    cases hlength
  | nil =>
    obtain ⟨rfl, -⟩ := List.append_eq_nil_iff.mp hall
    obtain rfl : items.map (Stub.checked c) = batch := by
      have hcalm := Builtin.checkAll_calm hcheck
      rw [hitems.checkAll_eq (fun _ _ => h.read) h.named (fun _ hn => hn) hs.base] at hcalm
      exact congrArg Prod.fst hcalm
    have hlinked : (items.map (Stub.checked c)).map (Link.linked (.of d cp
        (items.map (Stub.checked c)))) = items.map (Stub.unit c.itemsNamespace) := by
      rw [List.map_map]
      rfl
    rcases hmake : d.makeFolders c.folders.items with ⟨made, d₁⟩
    have hmade : Leaves (fun _ => True) d d₁ := leaves_makeFolders hs.regular hmake
    have hfirst := hmade.refills h
    rw [hlinked]
    rcases made with err | ⟨⟩
    · exact ⟨hfirst, fun o ho => by cases ho⟩
    dsimp only
    rcases hwrite : Builtin.writeAll c.folders.items (items.map (Stub.unit c.itemsNamespace)) d₁ with
      ⟨written, d₂⟩
    obtain ⟨hrefills, hunits⟩ :=
      Stub.storeAll_refills (hs.leaves hmade) hfirst.stubs hitems.are_kept hwrite
    rcases written with err | paths
    · exact ⟨hfirst.trans hrefills, fun o ho => by cases ho⟩
    · exact ⟨hfirst.trans hrefills, fun _ _ _ => hunits ⟨paths, rfl⟩⟩

/-- Which sources are stale is a matter of what is listed. -/
theorem Pass.map_path_stale (d : Disk) (folder : Path) : (stale d folder).map Source.path =
    (d.listed folder Naming.sourceExtension).filter fun q =>
      !((d.listed folder Naming.artifactExtension).map Path.stem).contains q.stem := by
  rw [stale, Source.scanFolder, List.filter_map, List.map_map]
  exact List.map_id _

/-- Every stub that is kept has the file of its unit. -/
def AreFilled (c : Config) (I : Place) (kept : String → Option Item) (d : Disk) : Prop :=
  ∀ n i, kept n = some i → d.HasFile (Stub.unitPlace c I n)

/-- Whatever fails in a pass over the stubs, they stay in order, and if the pass succeeds every stub
has its unit. -/
theorem Pass.compileItems_refills (hs : Site c I d) (h : HasStubs c I kept d) :
    Refills c I kept d (compileItems .builtin c d).disk ∧
      ∀ o, (compileItems .builtin c d).outcome = .ok o → o.succeeded = true →
        AreFilled c I kept (compileItems .builtin c d).disk := by
  have hlisted : ∀ q ∈ (stale d c.stubFolder).map Source.path,
      ∃ n i, kept n = some i ∧ q = Stub.path c n := fun q hq => by
    rw [map_path_stale] at hq
    exact h.exists_of_mem_listed hs (List.mem_filter.mp hq).1
  have hstale {n : String} {i : Item} (hi : kept n = some i)
      (hnone : ¬d.HasFile (Stub.unitPlace c I n)) :
      Stub.path c n ∈ (stale d c.stubFolder).map Source.path := by
    rw [map_path_stale, List.mem_filter, Stub.stem_path (h.valid hi), Bool.not_eq_true',
      Bool.eq_false_iff, ne_eq, List.contains_iff_mem]
    exact ⟨h.mem_listed hs hi, fun hmem => hnone (hs.hasFile_of_mem_stems hmem)⟩
  rw [compileItems]
  dsimp only [Compiled.after]
  rw [compileStale]
  generalize stale d c.stubFolder = sources at hlisted hstale
  by_cases hempty : sources.isEmpty = true
  · rw [if_pos hempty]
    refine ⟨(Leaves.refl hs.regular).refills h, fun _ _ _ n i hi => ?_⟩
    by_contra hnone
    have hmem := hstale hi hnone
    rw [List.isEmpty_iff.mp hempty] at hmem
    cases hmem
  · obtain ⟨items, hitems⟩ := exists_leadTo h.named hlisted
    obtain ⟨hrefills, hunits⟩ := hitems.compile_refills (itemsPath d c).1 hs h
    rw [if_neg hempty, compile, if_neg hempty]
    refine ⟨hrefills, fun o ho hsucceeded n i hi => ?_⟩
    by_cases hold : d.HasFile (Stub.unitPlace c I n)
    · exact hrefills.stays _ hold
    · obtain ⟨j, hj, hname, hpath⟩ := Builtin.exists_of_forall₂_left hitems _ (hstale hi hold)
      rw [Stub.path_injective (h.valid hi) (h.valid hname) hpath]
      exact hunits o ho hsucceeded j hj

/-! ### Reading units -/

/-- The units that are kept are collected, and no others. -/
theorem HasStubs.mem_collect {q : Path} (h : HasStubs c I kept d) (hs : Site c I d)
    (hfilled : AreFilled c I kept d) :
    q ∈ d.collect c.folders.items Naming.artifactExtension ↔
      ∃ n i, kept n = some i ∧ q = Stub.unitPath c n := by
  constructor
  · intro hq
    obtain ⟨F, names, hF, -, -, hfile, -, hext, rfl⟩ :=
      (Disk.mem_collect hs.regular).mp (mem_collect_calm hq)
    obtain rfl : F = I := (eq_aim (place?_calm.symm.trans hF)).trans hs.aim
    obtain ⟨n, i, hi, hplace | hplace⟩ := h.only _ ⟨names, .inr hext, rfl⟩ hfile
    · rw [List.append_cancel_left hplace, endsWith, List.getLast?_concat, Option.bind_some,
        Stub.cutName_fileName] at hext
      exact absurd (Option.some.inj (beq_iff_eq.mp hext)) (by decide)
    · exact ⟨n, i, hi, by rw [List.append_cancel_left hplace, Stub.unitPath_eq_below (h.valid hi)]⟩
  · rintro ⟨n, i, hi, rfl⟩
    have hplace := h.place?_items hs hi
    rw [hs.shows.collect_eq hplace]
    have hfolder : d.entry? I = some .folder := by
      by_cases hnil : Naming.segments c.itemsNamespace = []
      · have hfolder := (h.place?_stubFolder hs hi).2
        rwa [hnil, List.append_nil] at hfolder
      · refine hs.regular.tree.above hnil ?_
        rw [entry?_calm, (h.place?_stubFolder hs hi).2]
        exact Option.some_ne_none _
    exact (Disk.mem_collect hs.regular).mpr ⟨I, _, place?_calm.trans hplace, hfolder, by simp,
      hfilled n i hi, Stub.not_isHidden_names c n, Stub.endsWith_unitFile n,
      Stub.unitPath_eq_below (h.valid hi)⟩

/-- What is read from the file of a unit is that unit. -/
theorem HasStubs.eq_unit {name : String} {i : Item} {a : Artifact} (h : HasStubs c I kept d)
    (hs : Site c I d) (hi : kept name = some i)
    (ha : Artifact.read d (Stub.unitPath c name) = .ok a) : a = Stub.unit c.itemsNamespace i := by
  obtain ⟨content, hread⟩ : ∃ content, d.read (Stub.unitPath c name) = .ok content := by
    unfold Artifact.read Disk.readText at ha
    cases hread : d.read (Stub.unitPath c name) with
    | error err =>
      rw [hread] at ha
      cases ha
    | ok content => exact ⟨content, rfl⟩
  obtain ⟨P, x, hP, hx⟩ := (read_eq_ok_iff sound_calm).mp (read_calm hread)
  obtain rfl : P = Stub.unitPlace c I name :=
    (eq_aim (place?_calm.symm.trans hP)).trans (hs.aim_unitPath (h.valid hi))
  obtain ⟨k, rfl⟩ := h.unit name i content x hi hx
  exact Artifact.eq_of_read_extract (Stub.comesBack_unit _ i) hread ha

/-- Units that are read at the paths of some items are those of the items. -/
theorem HasStubs.eq_of_readAll {units : List Artifact} (h : HasStubs c I kept d) (hs : Site c I d)
    (hitems : ∀ i ∈ items, kept i.name = some i)
    (hread : Pack.readAll d (items.map fun i => Stub.unitPath c i.name) = .ok units) :
    units = items.map (Stub.unit c.itemsNamespace) := by
  induction items generalizing units with
  | nil =>
    cases hread
    rfl
  | cons i rest ih =>
    rw [List.map_cons, Pack.readAll] at hread
    cases ha : Artifact.read d (Stub.unitPath c i.name) with
    | error err =>
      rw [ha] at hread
      cases hread
    | ok a =>
      rw [ha] at hread
      dsimp only at hread
      cases hmore : Pack.readAll d (rest.map fun i => Stub.unitPath c i.name) with
      | error err =>
        rw [hmore] at hread
        cases hread
      | ok more =>
        rw [hmore] at hread
        cases hread
        rw [List.map_cons, h.eq_unit hs (hitems i List.mem_cons_self) ha,
          ih (fun j hj => hitems j (List.mem_cons_of_mem i hj)) hmore]

/-! ### Packing -/

/-- The pack of the items can be read, and holds those that are kept. -/
def HasPack (c : Config) (kept : String → Option Item) (d : Disk) : Prop :=
  ∃ p : Pack, p.HoldsItems c.itemsNamespace kept ∧
    d.calm.read c.itemsPack = .ok (Text.encode p.text)

theorem HasPack.leaves (h : HasPack c kept d) (hl : Leaves A d e) (hA : A (d.aim c.itemsPack)) :
    HasPack c kept e := by
  obtain ⟨p, hp, hread⟩ := h
  obtain ⟨P, x, hP, hx⟩ := (read_eq_ok_iff sound_calm).mp hread
  rw [place?_calm] at hP
  exact ⟨p, hp, (read_eq_ok_iff sound_calm).mpr ⟨P, x, place?_calm.trans (hl.place? hP),
    (hl.file P _ x (eq_aim hP ▸ hA)).mpr hx⟩⟩

theorem HasPack.read (h : HasPack c kept d) :
    ∃ p, Pack.read d.calm c.itemsPack = .ok p ∧ p.HoldsItems c.itemsNamespace kept := by
  obtain ⟨p, hp, hread⟩ := h
  refine ⟨p, Pack.read_eq_ok hp.increasing (fun y hy => ?_) hread, hp⟩
  obtain ⟨i, -, -, hi⟩ := (hp.mem_iff y.1 y.2).mp hy
  rw [hi]
  exact Stub.comesBack_unit _ i

namespace Pack

/-- Whatever fails while a pack is saved, only the pack and its temporary file change, and if saving
works the pack can be read. -/
theorem leaves_save {n n' : String} {q : Path} {p : Pack} {r : Except PackError Unit}
    (hd : d.calm.Regular) (hn : Path.IsName n) (hn' : Path.IsName n')
    (htemporary : temporary (q.join ⟨n⟩) = q.join ⟨n'⟩) (hs : p.save d (q.join ⟨n⟩) = (r, e)) :
    Leaves (fun Q => Q ≠ d.aim q ++ [n] ∧ Q ≠ d.aim q ++ [n']) d e ∧
      (r = .ok () → e.calm.read (q.join ⟨n⟩) = .ok (Text.encode p.text)) := by
  unfold save at hs
  rcases hmake : d.makeFolders ((q.join ⟨n⟩).parent?.getD ⟨""⟩) with ⟨made, d₁⟩
  have hmade : Leaves (fun Q => Q ≠ d.aim q ++ [n] ∧ Q ≠ d.aim q ++ [n']) d d₁ :=
    leaves_makeFolders hd hmake
  rw [hmake] at hs
  rcases made with err | ⟨⟩
  · cases hs
    exact ⟨hmade, by simp⟩
  dsimp only at hs
  rcases hwrite : d₁.write (temporary (q.join ⟨n⟩)) (Text.encode p.text) with ⟨written, d₂⟩
  obtain ⟨hother, hwritten⟩ := write_cases hmade.regular hwrite
  have haim : d₁.aim (temporary (q.join ⟨n⟩)) = d.aim q ++ [n'] := by
    rw [htemporary, aim_join hn', hmade.aim_eq]
  rw [haim] at hother hwritten
  have hfirst := hmade.trans (hother.mono fun _ hQ => hQ.2)
  rw [hwrite] at hs
  rcases written with err | ⟨⟩
  · cases hs
    exact ⟨hfirst, by simp⟩
  dsimp only at hs
  rcases hmove : d₂.move (temporary (q.join ⟨n⟩)) (q.join ⟨n⟩) with ⟨moved, d₃⟩
  obtain ⟨hrest, hmoved⟩ := move_cases hfirst.regular hmove
  rw [hother.aim_eq (temporary (q.join ⟨n⟩)), haim, aim_join hn, hfirst.aim_eq q] at hrest hmoved
  have hall := hfirst.trans (hrest.mono fun _ hQ => hQ.symm)
  rw [hmove] at hs
  rcases moved with err | ⟨⟩ <;> cases hs
  · exact ⟨hall, by simp⟩
  · refine ⟨hall, fun _ => ?_⟩
    obtain ⟨hplace, hentry⟩ := hmoved rfl
    obtain ⟨hno, -⟩ | ⟨-, -, k, x, hx, hwhole⟩ := hwritten
    · exact absurd rfl hno
    · rw [hwhole rfl] at hx
      exact (read_eq_ok_iff sound_calm).mpr
        ⟨_, x, place?_calm.trans (hrest.place? hplace), hentry.trans hx⟩

/-- Whatever fails while the units are packed, only the pack and its temporary file change, and if
the packing works the pack holds the items that are kept. -/
theorem packFolder_leaves {r : Except PackError Nat} (hs : Site c I d) (h : HasStubs c I kept d)
    (hfilled : AreFilled c I kept d)
    (hp : packFolder d c.folders.items c.itemsPack = (r, e)) :
    Leaves (AmongItems I) d e ∧ ((∃ n, r = .ok n) → HasPack c kept e) := by
  rw [packFolder] at hp
  cases hread : readAll d (d.collect c.folders.items Naming.artifactExtension) with
  | error err =>
    rw [hread] at hp
    cases hp
    exact ⟨.refl hs.regular, by rintro ⟨_, ⟨⟩⟩⟩
  | ok units =>
    rw [hread] at hp
    dsimp only at hp
    rcases hsave : (ofUnits units).save d c.itemsPack with ⟨saved, d₁⟩
    obtain ⟨hother, hstored⟩ := leaves_save hs.regular isName_itemsPackName isName_temporaryName
      (temporary_eq c.folders.jar) hsave
    obtain rfl : e = d₁ := by
      rw [hsave] at hp
      cases saved <;> exact (congrArg Prod.snd hp).symm
    refine ⟨hother.mono fun Q hQ => ?_, ?_⟩
    · obtain ⟨names, hnames, rfl⟩ := hQ
      exact ⟨hnames.ne_concat (by decide) (by decide), hnames.ne_concat (by decide) (by decide)⟩
    rintro ⟨n, rfl⟩
    rw [hsave] at hp
    rcases saved with err | ⟨⟩
    · cases hp
    have hmem := fun q => h.mem_collect hs hfilled (q := q)
    obtain ⟨items, hitems⟩ := exists_leadTo h.named fun q hq => (hmem q).mp hq
    have hnodup : (d.collect c.folders.items Naming.artifactExtension).Nodup :=
      IsTree.nodup_collect (.of_calm hs.regular.tree) _ _
    have hholds := hitems.holdsItems hmem hnodup h.named (fun _ hn => hn) c.itemsNamespace
    rw [hitems.paths_eq] at hread
    obtain rfl := h.eq_of_readAll hs hitems.are_kept hread
    exact ⟨_, hholds, hstored rfl⟩

end Pack

end LiveRules
