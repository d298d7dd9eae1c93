import LiveRules.Proofs.Item.Stocked
import LiveRules.Proofs.Json.Packs

/-!
Compiling stubs. A pass over the stubs compiles just those without a unit, each into the unit of
its item, so that afterwards every stub has the unit that it declares.
-/

namespace LiveRules

open Disk

variable {c : Config} {I J K : Place} {N : String → Prop} {R : Item → Prop} {d d' e : Disk}
variable {kept : String → Option Item} {item : Item} {name ext : String} {q : Path}

/-- The stubs of some items lie on a disk, and there are no other sources in their folder. -/
structure Stubbed (c : Config) (I : Place) (kept : String → Option Item) (d : Disk) : Prop where
  stub : ∀ n i, kept n = some i → ∃ x, d.entry? (Stub.place c I n) =
    some (.file (Text.encode (Stub.text c.itemsNamespace i)) x)
  only : ∀ file, (Path.cutName file).2 = some Naming.sourceExtension →
    d.HasFile (I ++ (Naming.segments c.itemsNamespace ++ [file])) →
    ∃ n, (kept n).isSome = true ∧ file = Stub.fileName n

theorem endsWith_concat {front : List String} {file : String}
    (h : (Path.cutName file).2 = some ext) : endsWith (front ++ [file]) ext = true := by
  rw [endsWith, List.getLast?_concat, Option.bind_some, h]
  exact beq_self_eq_true _

/-- Where there is room for the stubs, they can be read. -/
theorem Stubbed.read {i : Item} (h : Stubbed c I kept d) (hroom : Room c I J K N d)
    (hkept : AreKept N R kept) (hi : kept name = some i) :
    d.read (Stub.path c name) = .ok (Text.encode (Stub.text c.itemsNamespace i)) := by
  obtain ⟨x, hx⟩ := h.stub name i hi
  exact (hroom.stub name (hkept name i hi).1).read hroom.regular.sound hx

theorem Stocked.stubbed (h : Stocked c I kept d) : Stubbed c I kept d := by
  refine ⟨h.stub, fun file hcut hfile => ?_⟩
  obtain ⟨n, hn, hplace | hplace⟩ := h.only _ (.inl (endsWith_concat hcut)) hfile
  · exact ⟨n, hn, List.singleton_inj.mp (List.append_cancel_left (List.append_cancel_left hplace))⟩
  · obtain rfl := List.singleton_inj.mp
      (List.append_cancel_left (List.append_cancel_left hplace))
    rw [Stub.cutName_unitFile] at hcut
    exact absurd (Option.some.inj hcut) (by decide)

/-! ### What is listed -/

/-- What is listed in the folder of the stubs are files there. -/
theorem Room.exists_of_mem_listed (hroom : Room c I J K N d) (hq : q ∈ d.listed c.stubFolder ext) :
    ∃ file, Path.IsName file ∧ (Path.cutName file).2 = some ext ∧
      q = c.stubFolder.join ⟨file⟩ ∧
      d.HasFile (I ++ (Naming.segments c.itemsNamespace ++ [file])) := by
  obtain ⟨F, file, hF, -, hthere, rfl, hfile, hhas⟩ := (mem_listed hroom.regular).mp hq
  obtain rfl : I ++ Naming.segments c.itemsNamespace = F :=
    Except.ok.inj (hroom.stubs.symm.trans hF)
  have hname : Path.IsName file := hroom.regular.tree.isName hthere
  have hplace := hasFile_of_isFile_join hroom.regular hname hF hfile
  rw [List.append_assoc] at hplace
  rw [Path.hasExtension, extension?_join hname, beq_iff_eq] at hhas
  exact ⟨file, hname, hhas, rfl, hplace⟩

theorem Room.mem_listed {file : String} (hroom : Room c I J K N d) (hname : Path.IsName file)
    (hpath : d.Accepts (c.stubFolder.join ⟨file⟩)
      (I ++ (Naming.segments c.itemsNamespace ++ [file])))
    (hfile : d.HasFile (I ++ (Naming.segments c.itemsNamespace ++ [file])))
    (hext : (Path.cutName file).2 = some ext) :
    c.stubFolder.join ⟨file⟩ ∈ d.listed c.stubFolder ext := by
  obtain ⟨content, x, hx⟩ := hfile
  refine (Disk.mem_listed hroom.regular).mpr
    ⟨_, file, hroom.stubs, hroom.stubFolder, ?_, rfl, ?_, ?_⟩
  · rw [List.append_assoc, hx]
    exact Option.some_ne_none _
  · exact (isFile_iff hroom.regular.sound).mpr ⟨_, content, x, hpath.place, hx⟩
  · rw [Path.hasExtension, extension?_join hname, hext]
    exact beq_self_eq_true _

/-- The units beside the stubs, by the names of their files. -/
theorem Room.mem_stems_units (hroom : Room c I J K N d) (hname : N name)
    (hvalid : Naming.isItemName name = true) :
    Stub.unitName name ∈ (d.listed c.stubFolder Naming.artifactExtension).map Path.stem ↔
      d.HasFile (Stub.unitPlace c I name) := by
  constructor
  · intro hmem
    obtain ⟨q, hq, hstem⟩ := List.mem_map.mp hmem
    obtain ⟨file, hfile, hcut, rfl, hplace⟩ := hroom.exists_of_mem_listed hq
    rw [Path.stem, Naming.stem?_join hfile] at hstem
    obtain rfl : file = Stub.unitFile name := by
      rw [Path.eq_of_cutName hcut]
      exact congrArg (· ++ "." ++ Naming.artifactExtension) hstem
    exact hplace
  · intro hfile
    have hpath := hroom.unit name hname
    rw [Stub.unitPath_eq hvalid] at hpath
    refine List.mem_map.mpr ⟨_, hroom.mem_listed (Stub.isName_unitFile hvalid) hpath hfile
      (congrArg Prod.snd (Stub.cutName_unitFile name)), ?_⟩
    rw [← Stub.unitPath_eq hvalid, Stub.stem_unitPath hvalid]

/-- The stubs are the sources in their folder. -/
theorem Stubbed.mem_listed_stubs (h : Stubbed c I kept d) (hroom : Room c I J K N d)
    (hkept : AreKept N R kept) (hvalid : ∀ n, N n → Naming.isItemName n = true) :
    q ∈ d.listed c.stubFolder Naming.sourceExtension ↔
      ∃ n i, kept n = some i ∧ q = Stub.path c n := by
  constructor
  · intro hq
    obtain ⟨file, -, hcut, rfl, hplace⟩ := hroom.exists_of_mem_listed hq
    obtain ⟨n, hn, rfl⟩ := h.only file hcut hplace
    obtain ⟨i, hi⟩ := Option.isSome_iff_exists.mp hn
    exact ⟨n, i, hi, rfl⟩
  · rintro ⟨n, i, hi, rfl⟩
    obtain ⟨hn, -, -⟩ := hkept n i hi
    obtain ⟨x, hx⟩ := h.stub n i hi
    exact hroom.mem_listed (Stub.isName_fileName (hvalid n hn)) (hroom.stub n hn) ⟨_, x, hx⟩
      (congrArg Prod.snd (Stub.cutName_fileName n))

/-- The stubs without units are those that a pass takes up. -/
theorem Stubbed.mem_stale (h : Stubbed c I kept d) (hroom : Room c I J K N d)
    (hkept : AreKept N R kept) (hvalid : ∀ n, N n → Naming.isItemName n = true) {s : Source} :
    s ∈ Pass.stale d c.stubFolder ↔ ∃ n i, kept n = some i ∧ s = .scan d (Stub.path c n) ∧
      ¬d.HasFile (Stub.unitPlace c I n) := by
  have hstem {n : String} {i : Item} (hi : kept n = some i) :
      (!((d.listed c.stubFolder Naming.artifactExtension).map Path.stem).contains
        (Source.scan d (Stub.path c n)).name) = true ↔ ¬d.HasFile (Stub.unitPlace c I n) := by
    have hn := (hkept n i hi).1
    rw [show (Source.scan d (Stub.path c n)).name = Stub.unitName n from
      Stub.stem_path (hvalid n hn), Bool.not_eq_true', Bool.eq_false_iff, ne_eq,
      List.contains_iff_mem, hroom.mem_stems_units hn (hvalid n hn)]
  rw [Pass.stale, List.mem_filter, Source.scanFolder, List.mem_map]
  constructor
  · rintro ⟨⟨q, hq, rfl⟩, hnone⟩
    obtain ⟨n, i, hi, rfl⟩ := (h.mem_listed_stubs hroom hkept hvalid).mp hq
    exact ⟨n, i, hi, rfl, (hstem hi).mp hnone⟩
  · rintro ⟨n, i, hi, rfl, hnone⟩
    exact ⟨⟨_, (h.mem_listed_stubs hroom hkept hvalid).mpr ⟨n, i, hi, rfl⟩, rfl⟩, (hstem hi).mpr hnone⟩

/-- Where there is room for a unit, there is a file or nothing. -/
theorem Room.hasFile_unit_iff (hroom : Room c I J K N d) (hname : N name) :
    d.HasFile (Stub.unitPlace c I name) ↔ d.entry? (Stub.unitPlace c I name) ≠ none := by
  have hfree := (hroom.unit name hname).free
  rw [HasFile]
  rcases hentry : d.entry? (Stub.unitPlace c I name) with _ | ⟨content, x⟩ | _
  · simp
  · simp
  · exact absurd hentry hfree

namespace Stocked

theorem mem_listed_stubs (h : Stocked c I kept d) (hroom : Room c I J K N d)
    (hkept : AreKept N R kept) (hvalid : ∀ n, N n → Naming.isItemName n = true) :
    q ∈ d.listed c.stubFolder Naming.sourceExtension ↔
      ∃ n i, kept n = some i ∧ q = Stub.path c n :=
  h.stubbed.mem_listed_stubs hroom hkept hvalid

end Stocked

/-! ### Checking and linking -/

namespace Stub

/-- What the check of the stub of an item gives. -/
def checked (c : Config) (item : Item) : CheckedUnit :=
  { path := path c item.name, unit := unit c.itemsNamespace item, baseLine := 0, itemLines := [] }

end Stub

/-- Paths that items which are kept lead to by their names. -/
def LeadTo (kept : String → Option Item) (path : String → Path) (paths : List Path)
    (items : List Item) : Prop :=
  List.Forall₂ (fun q i => kept i.name = some i ∧ q = path i.name) paths items

section LeadTo

variable {path : String → Path} {paths : List Path} {items : List Item}

theorem exists_leadTo (hkept : AreKept N R kept)
    (h : ∀ q ∈ paths, ∃ n i, kept n = some i ∧ q = path n) :
    ∃ items, LeadTo kept path paths items := by
  induction paths with
  | nil => exact ⟨[], .nil⟩
  | cons q rest ih =>
    obtain ⟨items, hitems⟩ := ih fun q hq => h q (List.mem_cons_of_mem _ hq)
    obtain ⟨n, i, hi, hpath⟩ := h q List.mem_cons_self
    obtain ⟨-, rfl, -⟩ := hkept n i hi
    exact ⟨i :: items, .cons ⟨hi, hpath⟩ hitems⟩

theorem LeadTo.are_kept (h : LeadTo kept path paths items) : ∀ i ∈ items, kept i.name = some i := by
  intro i hi
  obtain ⟨q, -, hkept, -⟩ := Builtin.exists_of_forall₂_right h i hi
  exact hkept

theorem LeadTo.paths_eq (h : LeadTo kept path paths items) :
    paths = items.map fun i => path i.name := by
  induction h with
  | nil => rfl
  | cons hhead _ ih => rw [List.map_cons, ← hhead.2, ← ih]

/-- Different paths are those of items with different names. -/
theorem LeadTo.nodup_names (h : LeadTo kept path paths items) (hnodup : paths.Nodup) :
    (items.map Item.name).Nodup := by
  rw [h.paths_eq, ← Function.comp_def path Item.name, ← List.map_map] at hnodup
  exact hnodup.of_map

end LeadTo

variable {sources : List Source} {items : List Item}

/-- Every stub that can be read passes its check. -/
theorem LeadTo.checkAll_eq (h : LeadTo kept (Stub.path c) (sources.map Source.path) items)
    (hread : ∀ n i, kept n = some i →
      d.read (Stub.path c n) = .ok (Text.encode (Stub.text c.itemsNamespace i)))
    (hkept : AreKept N R kept) (hvalid : ∀ n, N n → Naming.isItemName n = true)
    (hbase : Naming.isNamespace c.itemsNamespace = true) :
    Builtin.checkAll d sources = (items.map (Stub.checked c), []) := by
  rw [LeadTo, List.forall₂_map_left_iff] at h
  induction h with
  | nil => rfl
  | @cons s i sources items hhead _ ih =>
    obtain ⟨hi, hpath⟩ := hhead
    have hname := hvalid _ (hkept i.name i hi).1
    have hcheck : Check.ofPath d s.path = .ok (Stub.checked c i) := by
      rw [hpath, Check.ofPath, readText_of_encode (hread i.name i hi)]
      exact Stub.check_text hbase hname (Stub.stem_path hname)
    rw [Builtin.checkAll, ih]
    dsimp only
    rw [hcheck, List.map_cons]

/-- Units of different items have different identifiers. -/
theorem nodup_identifiers (hnodup : (items.map Item.name).Nodup)
    (hvalid : ∀ i ∈ items, Naming.isItemName i.name = true) (base : String) :
    (items.map fun i => (Stub.unit base i).identifier).Nodup := by
  have hidentifiers : (items.map fun i => (Stub.unit base i).identifier) =
      (items.map Item.name).map (Stub.identifier base) := by
    rw [List.map_map]
    rfl
  rw [hidentifiers]
  refine hnodup.map_on fun m hm n hn heq => ?_
  obtain ⟨i, hi, rfl⟩ := List.mem_map.mp hm
  obtain ⟨j, hj, rfl⟩ := List.mem_map.mp hn
  exact Stub.identifier_injective (hvalid i hi) (hvalid j hj) heq

/-- Stubs of different items link without problems. -/
theorem problems_checked {cp : ClassPath} (hnodup : (items.map Item.name).Nodup)
    (hvalid : ∀ i ∈ items, Naming.isItemName i.name = true) :
    Link.problems (.of d cp (items.map (Stub.checked c))) (items.map (Stub.checked c)) = [] := by
  have hitems : Link.IsItems (items.map (Stub.checked c)) := by
    intro p hp
    obtain ⟨i, -, rfl⟩ := List.mem_map.mp hp
    exact ⟨rfl, rfl, rfl⟩
  refine hitems.problems_eq_nil ?_ _
  rw [List.map_map]
  exact nodup_identifiers hnodup hvalid c.itemsNamespace

/-! ### Storing -/

/-- A disk on which the units of some items were stored, and nothing else. -/
structure Restocked (c : Config) (I J K : Place) (N : String → Prop) (items : List Item)
    (d e : Disk) : Prop where
  room : Room c I J K N e
  stored : ∀ i ∈ items, ∃ x, e.entry? (Stub.unitPlace c I i.name) =
    some (.file (Text.encode (Stub.unit c.itemsNamespace i).text) x)
  other : ∀ Q, (∀ i ∈ items, Q ≠ Stub.unitPlace c I i.name) → e.entry? Q = d.entry? Q

/-- Units that are stored beside their stubs keep these in line. -/
theorem Restocked.stocked (h : Restocked c I J K N items d e) (hstocked : Stocked c I kept d)
    (hkept : AreKept N R kept) (hitems : ∀ i ∈ items, kept i.name = some i) :
    Stocked c I kept e := by
  refine ⟨fun n i hi => ?_, fun n i hi => ?_, fun names hnames hfile => ?_⟩
  · rw [h.other _ fun j _ => Stub.place_ne_unitPlace n j.name]
    exact hstocked.stub n i hi
  · obtain ⟨-, rfl, -⟩ := hkept n i hi
    by_cases hmem : i ∈ items
    · exact .inr (h.stored i hmem)
    · rw [h.other _ fun j hj heq => hmem ?_]
      · exact hstocked.unit i.name i hi
      · obtain rfl := Option.some.inj
          ((hitems j hj).symm.trans (Stub.unitPlace_injective heq ▸ hi))
        exact hj
  · by_cases hplace : ∃ j ∈ items, I ++ names = Stub.unitPlace c I j.name
    · obtain ⟨j, hj, hplace⟩ := hplace
      exact ⟨j.name, by rw [hitems j hj]; rfl, .inr hplace⟩
    · obtain ⟨content, y, hy⟩ := hfile
      rw [h.other _ fun j hj heq => hplace ⟨j, hj, heq⟩] at hy
      exact hstocked.only names hnames ⟨content, y, hy⟩

/-- Every stub has its unit. -/
def Complete (c : Config) (I : Place) (kept : String → Option Item) (d : Disk) : Prop :=
  ∀ n i, kept n = some i → d.entry? (Stub.unitPlace c I n) ≠ none

/-- Afterwards every stub has its unit if all those that had none were stored. -/
theorem Restocked.complete (h : Restocked c I J K N items d e) (hroom : Room c I J K N d)
    (hkept : AreKept N R kept) (hitems : ∀ i,
      kept i.name = some i ∧ ¬d.HasFile (Stub.unitPlace c I i.name) → i ∈ items) :
    Complete c I kept e := by
  intro n i hi
  obtain ⟨hn, rfl, -⟩ := hkept n i hi
  by_cases hmem : ∃ j ∈ items, Stub.unitPlace c I i.name = Stub.unitPlace c I j.name
  · obtain ⟨j, hj, hplace⟩ := hmem
    obtain ⟨x, hx⟩ := h.stored j hj
    rw [hplace, hx]
    exact Option.some_ne_none _
  · rw [h.other _ fun j hj heq => hmem ⟨j, hj, heq⟩, ← hroom.hasFile_unit_iff hn]
    by_contra hno
    exact hmem ⟨i, hitems i ⟨hi, hno⟩, rfl⟩

theorem Stub.store_spec (hroom : Room c I J K N d) (hname : N item.name)
    (hvalid : Naming.isItemName item.name = true) : ∃ path e,
      (Stub.unit c.itemsNamespace item).write d c.folders.items = (.ok path, e) ∧
        Restocked c I J K N [item] d e := by
  obtain ⟨d₁, hmake, h₁, hsame⟩ :=
    makeFolders_parent hroom.regular (isName_unitFile hvalid) hroom.stubs hroom.stubFolder
  have hroom₁ := hroom.sameFolders h₁ hsame.sameFolders
  obtain ⟨e, hwrite, he, hsets⟩ := (hroom₁.unit item.name hname).write h₁
    (Text.encode (unit c.itemsNamespace item).text)
  refine ⟨unitPath c item.name, e, ?_, hroom₁.sets he hsets (hroom₁.unit item.name hname).free
    (by simp), fun i hi => ?_, fun Q hQ => ?_⟩
  · rw [← unitPath_eq hvalid] at hmake
    unfold Artifact.write
    rw [show Naming.artifactPath c.folders.items (unit c.itemsNamespace item).identifier =
      unitPath c item.name from rfl]
    dsimp only
    rw [hmake]
    dsimp only
    rw [hwrite]
  · obtain rfl := List.mem_singleton.mp hi
    exact ⟨_, (hsets.entry? _).trans (if_pos rfl)⟩
  · rw [hsets.entry?, if_neg (hQ item (List.mem_singleton_self _)), hsame.entry?]

/-- All units of a batch of stubs can be stored. -/
theorem Stub.storeAll_spec (hroom : Room c I J K N d) (hkept : AreKept N R kept)
    (hvalid : ∀ n, N n → Naming.isItemName n = true)
    (hitems : ∀ i ∈ items, kept i.name = some i) : ∃ written e,
      Builtin.writeAll c.folders.items (items.map (Stub.unit c.itemsNamespace)) d =
        (.ok written, e) ∧ Restocked c I J K N items d e := by
  induction items generalizing d with
  | nil => exact ⟨[], d, rfl, hroom, by simp, fun _ _ => rfl⟩
  | cons i items ih =>
    have hi := hitems i List.mem_cons_self
    have hname := (hkept i.name i hi).1
    obtain ⟨path, d₁, hwrite, hfirst⟩ := store_spec hroom hname (hvalid _ hname)
    obtain ⟨written, e, hrest, hall⟩ := ih hfirst.room fun j hj =>
      hitems j (List.mem_cons_of_mem i hj)
    refine ⟨path :: written, e, ?_, hall.room, fun j hj => ?_, fun Q hQ => ?_⟩
    · rw [List.map_cons, Builtin.writeAll, hwrite]
      dsimp only
      rw [hrest]
    · by_cases hmem : j ∈ items
      · exact hall.stored j hmem
      · obtain rfl := (List.mem_cons.mp hj).resolve_right hmem
        -- an item of the same name would be this one
        rw [hall.other _ fun k hk heq => hmem ?_]
        · exact hfirst.stored j (List.mem_singleton_self _)
        · have hsame := hitems k (List.mem_cons_of_mem _ hk)
          rw [← Stub.unitPlace_injective heq, hi] at hsame
          exact Option.some.inj hsame ▸ hk
    · rw [hall.other Q fun j hj => hQ j (List.mem_cons_of_mem i hj),
        hfirst.other Q fun j hj => hQ j (List.mem_singleton.mp hj ▸ List.mem_cons_self)]

/-! ### The pass -/

/-- Stubs compile into the folder of the items. -/
theorem LeadTo.compile_spec (cp : ClassPath)
    (h : LeadTo kept (Stub.path c) (sources.map Source.path) items)
    (hstubbed : Stubbed c I kept d) (hroom : Room c I J K N d) (hkept : AreKept N R kept)
    (hvalid : ∀ n, N n → Naming.isItemName n = true)
    (hbase : Naming.isNamespace c.itemsNamespace = true)
    (hnodup : (sources.map Source.path).Nodup) :
    ∃ o, (Builtin.compile d sources cp c.folders.items).outcome = .ok o ∧ o.succeeded = true ∧
      Restocked c I J K N items d (Builtin.compile d sources cp c.folders.items).disk := by
  have hproblems : Link.problems (.of d cp (items.map (Stub.checked c)))
      (items.map (Stub.checked c)) = [] :=
    problems_checked (h.nodup_names hnodup) fun i hi => hvalid _ (hkept i.name i (h.are_kept i hi)).1
  obtain ⟨d₁, hmake, h₁, hsame⟩ := makeFolders_of_isFolder hroom.regular
    (.inr ((isFolder_iff hroom.regular.sound).mpr ⟨I, hroom.items, hroom.itemsFolder⟩))
  obtain ⟨written, e, hwrite, hall⟩ := Stub.storeAll_spec
    (hroom.sameFolders h₁ hsame.sameFolders) hkept hvalid h.are_kept
  have hlinked : (items.map (Stub.checked c)).map (Link.linked (.of d cp
      (items.map (Stub.checked c)))) = items.map (Stub.unit c.itemsNamespace) := by
    rw [List.map_map]
    rfl
  simp only [Builtin.compile,
    h.checkAll_eq (fun _ _ => hstubbed.read hroom hkept) hkept hvalid hbase, hproblems,
    List.append_nil, hmake, hlinked, hwrite]
  exact ⟨_, rfl, rfl, hall.room, hall.stored, fun Q hQ =>
    (hall.other Q hQ).trans (hsame.entry? Q)⟩

/-- A pass over the stubs stores the units of those that have none. -/
theorem Pass.compileItems_restocks (hstubbed : Stubbed c I kept d) (hroom : Room c I J K N d)
    (hkept : AreKept N R kept) (hvalid : ∀ n, N n → Naming.isItemName n = true)
    (hbase : Naming.isNamespace c.itemsNamespace = true) :
    ∃ items o, (compileItems .builtin c d).outcome = .ok o ∧ o.succeeded = true ∧
      Restocked c I J K N items d (compileItems .builtin c d).disk ∧
      ∀ i, i ∈ items ↔ kept i.name = some i ∧ ¬d.HasFile (Stub.unitPlace c I i.name) := by
  have hstale := fun s => hstubbed.mem_stale hroom hkept hvalid (s := s)
  rw [compileItems]
  dsimp only [Compiled.after]
  rw [compileStale]
  have hnodup : ((stale d c.stubFolder).map Source.path).Nodup := by
    have hsub : (stale d c.stubFolder).Sublist (Source.scanFolder d c.stubFolder) :=
      List.filter_sublist
    refine (hsub.map Source.path).nodup ?_
    rw [Source.scanFolder, List.map_map]
    exact (List.map_id _).symm ▸ nodup_listed hroom.regular c.stubFolder Naming.sourceExtension
  generalize stale d c.stubFolder = sources at hstale hnodup
  obtain ⟨items, hitems⟩ : ∃ items, LeadTo kept (Stub.path c) (sources.map Source.path) items := by
    refine exists_leadTo hkept fun q hq => ?_
    obtain ⟨s, hs, rfl⟩ := List.mem_map.mp hq
    obtain ⟨n, i, hi, rfl, -⟩ := (hstale s).mp hs
    exact ⟨n, i, hi, rfl⟩
  have hmem (i : Item) : i ∈ items ↔
      kept i.name = some i ∧ ¬d.HasFile (Stub.unitPlace c I i.name) := by
    constructor
    · intro hi
      obtain ⟨q, hq, hkeptItem, rfl⟩ := Builtin.exists_of_forall₂_right hitems i hi
      obtain ⟨s, hs, hpath⟩ := List.mem_map.mp hq
      obtain ⟨n, j, hj, rfl, hnone⟩ := (hstale s).mp hs
      obtain rfl :=
        Stub.path_injective (hvalid _ (hkept n j hj).1) (hvalid _ (hkept _ i hkeptItem).1) hpath
      exact ⟨hkeptItem, hnone⟩
    · rintro ⟨hi, hnone⟩
      obtain ⟨j, hj, hname, hpath⟩ := Builtin.exists_of_forall₂_left hitems _
        (List.mem_map_of_mem ((hstale _).mpr ⟨i.name, i, hi, rfl, hnone⟩))
      have heq := Stub.path_injective (hvalid _ (hkept _ i hi).1) (hvalid _ (hkept _ j hname).1) hpath
      rw [← heq, hi] at hname
      exact Option.some.inj hname ▸ hj
  by_cases hempty : sources.isEmpty = true
  · rw [if_pos hempty]
    have hnone : items = [] := by
      rw [List.isEmpty_iff.mp hempty] at hitems
      exact List.forall₂_nil_left_iff.mp hitems
    exact ⟨items, {}, rfl, rfl, ⟨hroom, by simp [hnone], fun _ _ => rfl⟩, hmem⟩
  · obtain ⟨o, ho, hsucceeded, hrestocked⟩ := hitems.compile_spec (itemsPath d c).1 hstubbed
      hroom hkept hvalid hbase hnodup
    rw [if_neg hempty, compile, if_neg hempty]
    exact ⟨items, o, ho, hsucceeded, hrestocked, hmem⟩

/-- A pass over the stubs succeeds and leaves every stub with its unit. -/
theorem Pass.compileItems_spec (hstocked : Stocked c I kept d) (hroom : Room c I J K N d)
    (hkept : AreKept N R kept) (hvalid : ∀ n, N n → Naming.isItemName n = true)
    (hbase : Naming.isNamespace c.itemsNamespace = true) :
    ∃ o, (compileItems .builtin c d).outcome = .ok o ∧ o.succeeded = true ∧
      Room c I J K N (compileItems .builtin c d).disk ∧
      Stocked c I kept (compileItems .builtin c d).disk ∧
      Complete c I kept (compileItems .builtin c d).disk := by
  obtain ⟨items, o, ho, hsucceeded, hrestocked, hitems⟩ :=
    compileItems_restocks hstocked.stubbed hroom hkept hvalid hbase
  refine ⟨o, ho, hsucceeded, hrestocked.room,
    hrestocked.stocked hstocked hkept fun i hi => ((hitems i).mp hi).1,
    hrestocked.complete hroom hkept fun i => (hitems i).mpr⟩

end LiveRules
