import LiveRules.Proofs.Item.Passes

/-!
Packing items. When every stub has its unit, the pack of the items holds these units and no others,
and it is the same pack whatever way the disk came about.
-/

namespace LiveRules

open Disk

variable {c : Config} {I J K : Place} {N : String → Prop} {R : Item → Prop} {d e : Disk}
variable {kept : String → Option Item} {items : List Item} {q : Path}

/-- A pack holds the units of the items that are kept, and nothing else. -/
structure Pack.HoldsItems (base : String) (kept : String → Option Item) (p : Pack) : Prop where
  increasing : Increasing p.units
  digest : p.digest = (ContentHash.ofText (digestInput p.units)).hex
  mem_iff : ∀ k a, (k, a) ∈ p.units ↔ ∃ i, kept i.name = some i ∧
    k = Stub.identifier base i.name ∧ a = Stub.unit base i

/-- There is only one such pack. -/
theorem Pack.HoldsItems.unique {base : String} {p p' : Pack} (h : p.HoldsItems base kept)
    (h' : p'.HoldsItems base kept) : p = p' := by
  have hunits : p.units = p'.units := h.increasing.eq_of_mem_iff h'.increasing fun x => by
    rw [h.mem_iff x.1 x.2, h'.mem_iff x.1 x.2]
  obtain ⟨digest, units⟩ := p
  obtain ⟨digest', units'⟩ := p'
  obtain rfl : units = units' := hunits
  rw [show digest = digest' from h.digest.trans h'.digest.symm]

/-- The pack of the items that are kept lies where it belongs. -/
def Packed (c : Config) (J : Place) (kept : String → Option Item) (d : Disk) : Prop :=
  ∃ (p : Pack) (x : Bool), p.HoldsItems c.itemsNamespace kept ∧
    d.entry? (J ++ [Pack.itemsPackName]) = some (.file (Text.encode p.text) x)

theorem Stub.comesBack_unit (base : String) (item : Item) : (unit base item).ComesBack := by
  intro m hm
  cases hm

theorem Packed.read (h : Packed c J kept d) (hroom : Room c I J K N d) :
    ∃ p, Pack.read d c.itemsPack = .ok p ∧ p.HoldsItems c.itemsNamespace kept := by
  obtain ⟨p, x, hp, hx⟩ := h
  refine ⟨p, Pack.read_eq_ok hp.increasing (fun y hy => ?_)
    (hroom.pack.read hroom.regular.sound hx), hp⟩
  obtain ⟨i, -, -, hi⟩ := (hp.mem_iff y.1 y.2).mp hy
  rw [hi]
  exact Stub.comesBack_unit _ i

/-! ### Reading the units -/

theorem not_isHidden_of_no_point {name : String} (h : '.' ∉ name.toList) : isHidden name = false := by
  rw [isHidden, beq_eq_false_iff_ne]
  exact fun hhead => h (List.mem_of_head? hhead)

/-- Nothing is hidden on the way to the unit of an item. -/
theorem Stub.not_isHidden_names (c : Config) (name : String) :
    ∀ n ∈ Naming.segments c.itemsNamespace ++ [unitFile name], isHidden n = false := by
  intro n hn
  rcases List.mem_append.mp hn with hn | hn
  · exact not_isHidden_of_no_point (Naming.no_point_segments hn)
  · obtain rfl := List.mem_singleton.mp hn
    rw [isHidden, unitFile, unitName, mark]
    simp [String.toList_append]

/-- The unit of an item is collected if it lies there. -/
theorem Room.mem_collect_unit {name : String} (hroom : Room c I J K N d) (hname : N name)
    (hvalid : Naming.isItemName name = true) :
    Stub.unitPath c name ∈ d.collect c.folders.items Naming.artifactExtension ↔
      d.HasFile (Stub.unitPlace c I name) := by
  rw [Disk.mem_collect hroom.regular]
  constructor
  · rintro ⟨F, names, hF, -, hne, hfile, -, -, hpath⟩
    have hplace := (hroom.unit name hname).place
    rw [hpath] at hplace
    obtain ⟨F', hF', heq⟩ := place?_below (isNames_of_hasFile hroom.regular hfile) hne
      (place?_eq_ok_iff.mp hF).1.ne_empty hplace
    obtain rfl : F = F' := Except.ok.inj (hF.symm.trans hF')
    exact heq ▸ hfile
  · intro hfile
    refine ⟨I, Naming.segments c.itemsNamespace ++ [Stub.unitFile name], hroom.items,
      hroom.itemsFolder, by simp, hfile, Stub.not_isHidden_names c name,
      Stub.endsWith_unitFile name, Stub.unitPath_eq_below hvalid⟩

/-- The units below the place of the items are those of the items that are kept. -/
theorem Stocked.mem_collect (h : Stocked c I kept d) (hroom : Room c I J K N d)
    (hkept : AreKept N R kept) (hvalid : ∀ n, N n → Naming.isItemName n = true)
    (hcomplete : Complete c I kept d) :
    q ∈ d.collect c.folders.items Naming.artifactExtension ↔
      ∃ n i, kept n = some i ∧ q = Stub.unitPath c n := by
  rw [Disk.mem_collect hroom.regular]
  constructor
  · rintro ⟨F, names, hF, -, -, hfile, -, hext, rfl⟩
    obtain rfl : I = F := Except.ok.inj (hroom.items.symm.trans hF)
    obtain ⟨n, hn, hplace⟩ := h.only names (.inr hext) hfile
    obtain ⟨i, hi⟩ := Option.isSome_iff_exists.mp hn
    refine ⟨n, i, hi, ?_⟩
    rcases hplace with hplace | hplace
    · rw [List.append_cancel_left hplace, endsWith, List.getLast?_concat, Option.bind_some,
        Stub.cutName_fileName] at hext
      exact absurd (Option.some.inj (beq_iff_eq.mp hext)) (by decide)
    · rw [List.append_cancel_left hplace, Stub.unitPath_eq_below (hvalid n (hkept n i hi).1)]
  · rintro ⟨n, i, hi, rfl⟩
    obtain ⟨hn, -, -⟩ := hkept n i hi
    obtain ⟨x, hx⟩ := (h.unit n i hi).resolve_left (hcomplete n i hi)
    exact (Disk.mem_collect hroom.regular).mp
      ((hroom.mem_collect_unit hn (hvalid n hn)).mpr ⟨_, x, hx⟩)

/-- The units of items, read in the order of their paths. -/
theorem Stocked.readAll_eq {paths : List Path} (h : Stocked c I kept d) (hroom : Room c I J K N d)
    (hkept : AreKept N R kept) (hcomplete : Complete c I kept d)
    (hpaths : LeadTo kept (Stub.unitPath c) paths items) :
    Pack.readAll d paths = .ok (items.map (Stub.unit c.itemsNamespace)) := by
  rw [hpaths.paths_eq]
  refine Pack.readAll_map fun i hi => ?_
  have hitem := hpaths.are_kept i hi
  obtain ⟨hn, -, -⟩ := hkept i.name i hitem
  obtain ⟨x, hx⟩ := (h.unit _ i hitem).resolve_left (hcomplete _ i hitem)
  exact Artifact.read_eq_ok (Stub.comesBack_unit c.itemsNamespace i)
    ((hroom.unit i.name hn).read hroom.regular.sound hx)

/-! ### Storing the pack -/

/-- A file with another extension is neither a source nor a unit. -/
theorem IsSourceOrUnit.ne_concat {names : List String} {n : String} (h : IsSourceOrUnit names)
    (hsource : (Path.cutName n).2 ≠ some Naming.sourceExtension)
    (hunit : (Path.cutName n).2 ≠ some Naming.artifactExtension) : I ++ names ≠ J ++ [n] := by
  intro heq
  have hends {ext : String} (hext : endsWith names ext = true) : (Path.cutName n).2 = some ext := by
    have hne : names ≠ [] := by
      rintro rfl
      cases hext
    have hlast := congrArg List.getLast? heq
    rw [getLast?_append_of_ne hne, List.getLast?_concat] at hlast
    rw [endsWith, hlast, Option.bind_some] at hext
    exact beq_iff_eq.mp hext
  rcases h with h | h
  · exact hsource (hends h)
  · exact hunit (hends h)

/-- A pack is saved beside its temporary file, and nothing else changes. -/
theorem Pack.save_spec (hroom : Room c I J K N d) (p : Pack) : ∃ e, p.save d c.itemsPack = (.ok (), e) ∧
    Room c I J K N e ∧
    (∃ x, e.entry? (J ++ [itemsPackName]) = some (.file (Text.encode p.text) x)) ∧
    ∀ Q, Q ≠ J ++ [itemsPackName] → Q ≠ J ++ [temporaryName] → e.entry? Q = d.entry? Q := by
  obtain ⟨d₁, hmake, h₁, hsame⟩ :=
    makeFolders_parent hroom.regular isName_itemsPackName hroom.jar hroom.jarFolder
  have hroom₁ := hroom.sameFolders h₁ hsame.sameFolders
  obtain ⟨d₂, hwrite, h₂, hsets⟩ := hroom₁.temporary.write h₁ (Text.encode p.text)
  have hroom₂ := hroom₁.sets h₂ hsets hroom₁.temporary.free (by simp)
  have hfile : d₂.entry? (J ++ [temporaryName]) =
      some (.file (Text.encode p.text) (d₁.isExecutable (J ++ [temporaryName]))) := by
    rw [hsets.entry?, if_pos rfl]
  obtain ⟨e, hmove, he, hmoved⟩ :=
    hroom₂.pack.move h₂ hroom₂.temporary.place ⟨_, _, hfile⟩
  refine ⟨e, ?_, hroom₂.sameFolders he hmoved.sameFolders,
    ⟨d₁.isExecutable (J ++ [temporaryName]), ?_⟩, fun Q hQ hQ' => ?_⟩
  · rw [save, show c.itemsPack = c.folders.jar.join ⟨itemsPackName⟩ from rfl, hmake]
    dsimp only
    rw [show c.folders.jar.join ⟨itemsPackName⟩ = c.itemsPack from rfl, hwrite]
    dsimp only
    rw [hmove]
  · rw [hmoved.entry?, if_pos rfl, hfile]
  · rw [hmoved.entry?, if_neg hQ, if_neg hQ', hsets.entry?, if_neg hQ', hsame.entry?]

/-- Whatever units are read below the place of the items get into the pack. -/
theorem Pack.packFolder_reads {units : List Artifact} (hroom : Room c I J K N d)
    (hread : readAll d (d.collect c.folders.items Naming.artifactExtension) = .ok units)
    (hback : ∀ a ∈ units, a.ComesBack) :
    ∃ n e, packFolder d c.folders.items c.itemsPack = (.ok n, e) ∧ Room c I J K N e ∧
      (∃ x, e.entry? (J ++ [itemsPackName]) = some (.file (Text.encode (ofUnits units).text) x)) ∧
      Pack.read e c.itemsPack = .ok (ofUnits units) ∧
      ∀ Q, Q ≠ J ++ [itemsPackName] → Q ≠ J ++ [temporaryName] → e.entry? Q = d.entry? Q := by
  obtain ⟨e, hsave, hroom', ⟨x, hfile⟩, hother⟩ := save_spec hroom (ofUnits units)
  refine ⟨(ofUnits units).units.length, e, ?_, hroom', ⟨x, hfile⟩, ?_, hother⟩
  · rw [packFolder, hread]
    dsimp only
    rw [hsave]
  · exact Pack.read_eq_ok (increasing_ofUnits units) (fun y hy => hback _ (mem_of_mem_ofUnits hy))
      (hroom'.pack.read hroom'.regular.sound hfile)

/-- The units at the paths of all items that are kept make the pack of the items. -/
theorem LeadTo.holdsItems {paths : List Path} (h : LeadTo kept (Stub.unitPath c) paths items)
    (hpaths : ∀ q, q ∈ paths ↔ ∃ n i, kept n = some i ∧ q = Stub.unitPath c n)
    (hnodup : paths.Nodup) (hkept : AreKept N R kept)
    (hvalid : ∀ n, N n → Naming.isItemName n = true) (base : String) :
    (Pack.ofUnits (items.map (Stub.unit base))).HoldsItems base kept := by
  have hidentifiers : ((items.map (Stub.unit base)).map (·.identifier)).Nodup := by
    rw [List.map_map]
    exact nodup_identifiers (h.nodup_names hnodup)
      (fun i hi => hvalid _ (hkept _ i (h.are_kept i hi)).1) base
  refine ⟨Pack.increasing_ofUnits _, rfl, fun k a => ?_⟩
  rw [Pack.mem_ofUnits hidentifiers, List.mem_map]
  constructor
  · rintro ⟨⟨i, hi, rfl⟩, hk⟩
    exact ⟨i, h.are_kept i hi, hk, rfl⟩
  · rintro ⟨i, hi, hk, rfl⟩
    obtain ⟨j, hj, hname, hpath⟩ :=
      Builtin.exists_of_forall₂_left h _ ((hpaths _).mpr ⟨i.name, i, hi, rfl⟩)
    have heq := Stub.unitPath_injective (hvalid _ (hkept _ i hi).1) (hvalid _ (hkept _ j hname).1)
      hpath
    rw [← heq, hi, Option.some.injEq] at hname
    exact ⟨⟨i, hname ▸ hj, rfl⟩, hk⟩

/-- What is read below the place of the items makes the pack of the items. -/
theorem Stocked.readAll_collect (h : Stocked c I kept d) (hroom : Room c I J K N d)
    (hkept : AreKept N R kept) (hvalid : ∀ n, N n → Naming.isItemName n = true)
    (hcomplete : Complete c I kept d) : ∃ items : List Item,
      Pack.readAll d (d.collect c.folders.items Naming.artifactExtension) =
        .ok (items.map (Stub.unit c.itemsNamespace)) ∧
      (Pack.ofUnits (items.map (Stub.unit c.itemsNamespace))).HoldsItems c.itemsNamespace kept := by
  have hmem := fun q => h.mem_collect hroom hkept hvalid hcomplete (q := q)
  have hnodup := nodup_collect hroom.regular c.folders.items Naming.artifactExtension
  obtain ⟨items, hitems⟩ := exists_leadTo hkept fun q hq => (hmem q).mp hq
  exact ⟨items, h.readAll_eq hroom hkept hcomplete hitems,
    hitems.holdsItems hmem hnodup hkept hvalid c.itemsNamespace⟩

/-- The units of the items are packed. -/
theorem Pack.packFolder_spec (hstocked : Stocked c I kept d) (hroom : Room c I J K N d)
    (hkept : AreKept N R kept) (hvalid : ∀ n, N n → Naming.isItemName n = true)
    (hcomplete : Complete c I kept d) :
    ∃ n e, packFolder d c.folders.items c.itemsPack = (.ok n, e) ∧ Room c I J K N e ∧
      Stocked c I kept e ∧ Packed c J kept e := by
  obtain ⟨items, hread, hholds⟩ := hstocked.readAll_collect hroom hkept hvalid hcomplete
  have hback : ∀ a ∈ items.map (Stub.unit c.itemsNamespace), a.ComesBack := by
    intro a ha
    obtain ⟨i, -, rfl⟩ := List.mem_map.mp ha
    exact Stub.comesBack_unit _ i
  obtain ⟨n, e, hpack, hroom', ⟨x, hfile⟩, -, hother⟩ := packFolder_reads hroom hread hback
  refine ⟨n, e, hpack, hroom', hstocked.congr fun names hnames => ?_, _, x, hholds, hfile⟩
  exact hother _ (hnames.ne_concat (by decide) (by decide))
    (hnames.ne_concat (by decide) (by decide))

end LiveRules
