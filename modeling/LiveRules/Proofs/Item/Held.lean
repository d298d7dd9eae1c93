import LiveRules.Proofs.Files.Aims
import LiveRules.Proofs.Item.Events

/-!
Stubs where operations fail. Whatever becomes of an attempt to write or to remove a stub, the stubs
are those of some items, and units lie beside them only as long as they say the same; what is not
told to have changed has not changed. The attempt that breaks this is one that fails at the unit of
a stub when the stub itself is dealt with already, and it is told.
-/

namespace LiveRules

open Disk

variable {c : Config} {I : Place} {d d' e : Disk} {A : Place → Prop}
variable {kept kept' : String → Option Item} {item : Item} {name : String} {p : Path} {P Q : Place}

/-- The places of sources and units at or below a place. -/
def AmongItems (I Q : Place) : Prop := ∃ names, IsSourceOrUnit names ∧ Q = I ++ names

namespace Stub

theorem isName_segments (h : Naming.isNamespace c.itemsNamespace = true) :
    ∀ n ∈ Naming.segments c.itemsNamespace, Path.IsName n := fun _ hn =>
  Naming.isName_segment (Naming.not_mem_of_isNamespace (by decide) (by decide) h) hn

theorem aim_stubFolder (h : Naming.isNamespace c.itemsNamespace = true) :
    d.aim c.stubFolder = d.aim c.folders.items ++ Naming.segments c.itemsNamespace := by
  rw [Config.stubFolder, Naming.folder_eq_below, aim_below (isName_segments h)]

theorem aim_path (h : Naming.isNamespace c.itemsNamespace = true)
    (hname : Naming.isItemName name = true) :
    d.aim (path c name) = place c (d.aim c.folders.items) name := by
  rw [path, aim_join (isName_fileName hname), aim_stubFolder h, place, List.append_assoc]

theorem aim_unitPath (h : Naming.isNamespace c.itemsNamespace = true)
    (hname : Naming.isItemName name = true) :
    d.aim (unitPath c name) = unitPlace c (d.aim c.folders.items) name := by
  rw [unitPath_eq hname, aim_join (isName_unitFile hname), aim_stubFolder h, unitPlace,
    List.append_assoc]

/-- Where the path of a stub leads, that of its unit leads as well. -/
theorem place?_unitPath (hname : Naming.isItemName name = true) (h : d.place? (path c name) = .ok P) :
    d.place? (unitPath c name) = .ok (d.aim (unitPath c name)) := by
  have hnul : '\x00' ∉ (unitFile name).toList := by
    rw [unitFile, String.toList_append, String.toList_append, List.mem_append, List.mem_append]
    rintro ((hmem | hmem) | hmem)
    · exact not_mem_unitName hname (by decide) hmem
    · exact absurd hmem (by decide)
    · exact absurd hmem (by decide)
  have hsize : (unitFile name).utf8ByteSize = (fileName name).utf8ByteSize := by
    rw [unitFile, fileName, String.utf8ByteSize_append, String.utf8ByteSize_append,
      String.utf8ByteSize_append, String.utf8ByteSize_append]
    rfl
  rw [unitPath_eq hname, aim_join (isName_unitFile hname)]
  exact place?_beside (isName_fileName hname) (isName_unitFile hname) hnul hsize h

theorem among_place (c : Config) (I : Place) (name : String) : AmongItems I (place c I name) :=
  ⟨_, isSourceOrUnit_place c name, rfl⟩

theorem among_unitPlace (c : Config) (I : Place) (name : String) :
    AmongItems I (unitPlace c I name) :=
  ⟨_, isSourceOrUnit_unitPlace c name, rfl⟩

end Stub

/-- The folder of the items is at a place, apart from that of the rule units, and what lies below it
can be seen. No trouble there pretends that a file is gone, and a stub that cannot be written stays
as it was. -/
structure Site (c : Config) (I : Place) (d : Disk) : Prop where
  regular : d.calm.Regular
  items : c.folders.items.text ≠ ""
  aim : d.aim c.folders.items = I
  base : Naming.isNamespace c.itemsNamespace = true
  not_above : ¬I <+: d.aim c.folders.ruleClasses
  not_below : ¬d.aim c.folders.ruleClasses <+: I
  shows : d.Shows I
  honest : ∀ n P t, I <+: P → d.troubles n .removeFile P = some t → t.error ≠ .notFound
  whole : ∀ n name t, Naming.isItemName name = true →
    d.troubles n .write (Stub.place c I name) = some t → t.torn = none

/-- The stubs of some items lie on a disk. Of the units beside them nothing lies there, or a
beginning of each, and below the place of the items there are no other sources and units. -/
structure HasStubs (c : Config) (I : Place) (kept : String → Option Item) (d : Disk) : Prop where
  named : AreKept (Naming.isItemName · = true) (fun _ => True) kept
  path : ∀ n i, kept n = some i → d.place? (Stub.path c n) = .ok (Stub.place c I n)
  stub : ∀ n i, kept n = some i → ∃ x, d.entry? (Stub.place c I n) =
    some (.file (Text.encode (Stub.text c.itemsNamespace i)) x)
  unit : ∀ n i content x, kept n = some i →
    d.entry? (Stub.unitPlace c I n) = some (.file content x) →
    ∃ k, content = (Text.encode (Stub.unit c.itemsNamespace i).text).extract 0 k
  only : ∀ Q, AmongItems I Q → d.HasFile Q →
    ∃ n i, kept n = some i ∧ (Q = Stub.place c I n ∨ Q = Stub.unitPlace c I n)

namespace Site

theorem leaves (h : Site c I d) (hl : Leaves A d e) : Site c I e where
  regular := hl.regular
  items := h.items
  aim := (hl.aim_eq _).trans h.aim
  base := h.base
  not_above := (hl.aim_eq _).symm ▸ h.not_above
  not_below := (hl.aim_eq _).symm ▸ h.not_below
  shows := h.shows.of_troubles hl.troubles
  honest := hl.troubles ▸ h.honest
  whole := hl.troubles ▸ h.whole

theorem aim_path (h : Site c I d) (hname : Naming.isItemName name = true) :
    d.aim (Stub.path c name) = Stub.place c I name := by
  rw [Stub.aim_path h.base hname, h.aim]

theorem aim_unitPath (h : Site c I d) (hname : Naming.isItemName name = true) :
    d.aim (Stub.unitPath c name) = Stub.unitPlace c I name := by
  rw [Stub.aim_unitPath h.base hname, h.aim]

/-- No rule unit is stored among the items. -/
theorem not_amongUnits (h : Site c I d) (hQ : AmongItems I Q) :
    ¬AmongUnits (d.aim c.folders.ruleClasses) Q := by
  rintro ⟨names, -, rfl⟩
  obtain ⟨names', -, heq⟩ := hQ
  rcases List.prefix_or_prefix_of_prefix ⟨names', heq.symm⟩ (List.prefix_append _ names) with
    habove | hbelow
  · exact h.not_above habove
  · exact h.not_below hbelow

theorem isHonest (h : Site c I d) (hp : I <+: d.aim p) : d.IsHonest p := fun P t hP ht =>
  h.honest _ P t (eq_aim hP ▸ hp) ht

theorem place?_unitPath (h : Site c I d) (hname : Naming.isItemName name = true)
    (hP : d.place? (Stub.path c name) = .ok P) :
    d.place? (Stub.unitPath c name) = .ok (Stub.unitPlace c I name) :=
  h.aim_unitPath hname ▸ Stub.place?_unitPath hname hP

end Site

namespace HasStubs

theorem valid {i : Item} (h : HasStubs c I kept d) (hi : kept name = some i) :
    Naming.isItemName name = true :=
  (h.named name i hi).1

/-- Nothing is kept where nothing lies. -/
theorem of_none (h : ∀ Q, AmongItems I Q → ¬d.HasFile Q) : HasStubs c I (fun _ => none) d where
  named _ _ hi := by cases hi
  path _ _ hi := by cases hi
  stub _ _ hi := by cases hi
  unit _ _ _ _ hi := by cases hi
  only Q hQ hfile := absurd hfile (h Q hQ)

/-- The sources and units below the place of the items are all that counts. -/
theorem leaves (h : HasStubs c I kept d) (hl : Leaves (AmongItems I) d e) : HasStubs c I kept e where
  named := h.named
  path n i hi := hl.place? (h.path n i hi)
  stub n i hi :=
    (h.stub n i hi).imp fun x => (hl.file _ _ x (Stub.among_place c I n)).mpr
  unit n i content x hi hx :=
    h.unit n i content x hi ((hl.file _ _ x (Stub.among_unitPlace c I n)).mp hx)
  only Q hQ hfile := h.only Q hQ ((hl.hasFile_iff hQ).mp hfile)

theorem hasFile_place (h : HasStubs c I kept d) (hfile : d.HasFile (Stub.place c I name)) :
    ∃ i, kept name = some i := by
  obtain ⟨n, i, hi, hplace | hplace⟩ := h.only _ (Stub.among_place c I name) hfile
  · exact ⟨i, Stub.place_injective hplace ▸ hi⟩
  · exact absurd hplace (Stub.place_ne_unitPlace name n)

theorem hasFile_unitPlace (h : HasStubs c I kept d) (hfile : d.HasFile (Stub.unitPlace c I name)) :
    ∃ i, kept name = some i := by
  obtain ⟨n, i, hi, hplace | hplace⟩ := h.only _ (Stub.among_unitPlace c I name) hfile
  · exact absurd hplace.symm (Stub.place_ne_unitPlace n name)
  · exact ⟨i, Stub.unitPlace_injective hplace ▸ hi⟩

/-- What is kept may change with the stub of one item, if the unit of that item is gone. -/
theorem update (h : HasStubs c I kept d) (o : Option Item)
    (hl : Leaves (fun Q => Q ≠ Stub.place c I name ∧ Q ≠ Stub.unitPlace c I name) d e)
    (hname : ∀ i, o = some i → i.name = name ∧ Naming.isItemName name = true)
    (hstub : ∀ i, o = some i → e.place? (Stub.path c name) = .ok (Stub.place c I name) ∧
      ∃ x, e.entry? (Stub.place c I name) =
        some (.file (Text.encode (Stub.text c.itemsNamespace i)) x))
    (hgone : o = none → ¬e.HasFile (Stub.place c I name))
    (hunit : ¬e.HasFile (Stub.unitPlace c I name)) :
    HasStubs c I (Function.update kept name o) e := by
  have hcases {n : String} {i : Item} (hi : Function.update kept name o n = some i) :
      n = name ∧ o = some i ∨ n ≠ name ∧ kept n = some i := by
    by_cases hn : n = name
    · subst hn
      exact .inl ⟨rfl, (Function.update_self n o kept).symm.trans hi⟩
    · exact .inr ⟨hn, (Function.update_of_ne hn o kept).symm.trans hi⟩
  have hplaces {n : String} (hn : n ≠ name) :
      (Stub.place c I n ≠ Stub.place c I name ∧ Stub.place c I n ≠ Stub.unitPlace c I name) ∧
        Stub.unitPlace c I n ≠ Stub.place c I name ∧
        Stub.unitPlace c I n ≠ Stub.unitPlace c I name :=
    ⟨⟨fun heq => hn (Stub.place_injective heq), Stub.place_ne_unitPlace n name⟩,
      (Stub.place_ne_unitPlace name n).symm, fun heq => hn (Stub.unitPlace_injective heq)⟩
  refine ⟨fun n i hi => ?_, fun n i hi => ?_, fun n i hi => ?_, fun n i content x hi hx => ?_,
    fun Q hQ hfile => ?_⟩
  · obtain ⟨rfl, ho⟩ | ⟨-, hold⟩ := hcases hi
    · exact ⟨(hname i ho).2, (hname i ho).1, trivial⟩
    · exact h.named n i hold
  · obtain ⟨rfl, ho⟩ | ⟨-, hold⟩ := hcases hi
    · exact (hstub i ho).1
    · exact hl.place? (h.path n i hold)
  · obtain ⟨rfl, ho⟩ | ⟨hn, hold⟩ := hcases hi
    · exact (hstub i ho).2
    · exact (h.stub n i hold).imp fun x => (hl.file _ _ x (hplaces hn).1).mpr
  · obtain ⟨rfl, -⟩ | ⟨hn, hold⟩ := hcases hi
    · exact absurd ⟨content, x, hx⟩ hunit
    · exact h.unit n i content x hold ((hl.file _ _ x (hplaces hn).2).mp hx)
  · by_cases hstubPlace : Q = Stub.place c I name
    · subst hstubPlace
      cases o with
      | none => exact absurd hfile (hgone rfl)
      | some i => exact ⟨name, i, Function.update_self name _ kept, .inl rfl⟩
    · have hunitPlace : Q ≠ Stub.unitPlace c I name := fun heq => hunit (heq ▸ hfile)
      obtain ⟨n, i, hi, hor⟩ := h.only Q hQ ((hl.hasFile_iff ⟨hstubPlace, hunitPlace⟩).mp hfile)
      refine ⟨n, i, ?_, hor⟩
      rw [Function.update_of_ne ?_, hi]
      rintro rfl
      exact hor.elim hstubPlace hunitPlace

/-- A unit is stored beside its stub, and be it in part. -/
theorem store {i : Item} (h : HasStubs c I kept d) (hi : kept name = some i)
    (hl : Leaves (· ≠ Stub.unitPlace c I name) d e)
    (hunit : ∀ content x, e.entry? (Stub.unitPlace c I name) = some (.file content x) →
      ∃ k, content = (Text.encode (Stub.unit c.itemsNamespace i).text).extract 0 k) :
    HasStubs c I kept e where
  named := h.named
  path n j hj := hl.place? (h.path n j hj)
  stub n j hj :=
    (h.stub n j hj).imp fun x => (hl.file _ _ x (Stub.place_ne_unitPlace n name)).mpr
  unit n j content x hj hx := by
    by_cases hn : n = name
    · subst hn
      obtain rfl := Option.some.inj (hi.symm.trans hj)
      exact hunit content x hx
    · have hne : Stub.unitPlace c I n ≠ Stub.unitPlace c I name :=
        fun heq => hn (Stub.unitPlace_injective heq)
      exact h.unit n j content x hj ((hl.file _ _ x hne).mp hx)
  only Q hQ hfile := by
    by_cases hplace : Q = Stub.unitPlace c I name
    · exact ⟨name, i, hi, .inr hplace⟩
    · exact h.only Q hQ ((hl.hasFile_iff hplace).mp hfile)

end HasStubs

/-! ### Steps -/

/-- A step from one disk to another leaves all files alone that are not among the items, and the
stubs in order; other items are kept afterwards only if that is noted. -/
structure Turns (c : Config) (I : Place) (noted : Prop) (kept kept' : String → Option Item)
    (d e : Disk) : Prop where
  leaves : Leaves (fun Q => ¬AmongItems I Q) d e
  stubs : HasStubs c I kept' e
  same : noted ∨ kept' = kept

variable {noted noted' : Prop}

theorem Turns.trans {kept'' : String → Option Item} (h : Turns c I noted kept kept' d d')
    (h' : Turns c I noted' kept' kept'' d' e) : Turns c I (noted ∨ noted') kept kept'' d e := by
  refine ⟨h.leaves.trans h'.leaves, h'.stubs, ?_⟩
  rcases h.same with hn | rfl
  · exact .inl (.inl hn)
  · exact h'.same.imp_left .inr

theorem Turns.imp (h : Turns c I noted kept kept' d e) (himp : noted → noted') :
    Turns c I noted' kept kept' d e :=
  ⟨h.leaves, h.stubs, h.same.imp_left himp⟩

/-- A step that leaves all files alone. -/
theorem Disk.Leaves.turns (hl : Leaves (fun _ => True) d e) (h : HasStubs c I kept d) :
    Turns c I noted kept kept d e :=
  ⟨hl.mono fun _ _ => trivial, h.leaves (hl.mono fun _ _ => trivial), .inr rfl⟩

namespace Stub

/-- What is made of removing a file that need not be there. -/
def removal (p : Path) : Except OsError Unit → Except ShelfError Bool
  | .ok _ => .ok true
  | .error .notFound => .ok false
  | .error e => .error (.remove p e)

theorem removeIfThere_eq (d : Disk) (p : Path) :
    removeIfThere d p = (removal p (d.removeFile p).1, (d.removeFile p).2) := by
  unfold removeIfThere
  rcases d.removeFile p with ⟨err | ⟨⟩, e⟩
  · cases err <;> rfl
  · rfl

/-- What becomes of removing a file that need not be there: it is gone, or there was an error and
nothing has changed. -/
theorem removeIfThere_cases {x : Except ShelfError Bool} (hd : d.calm.Regular) (hp : d.IsHonest p)
    (h : removeIfThere d p = (x, e)) : Removes p d e ∧
      ((∃ err, x = .error (.remove p err)) ∧ Same d.calm e.calm ∨
        (∃ b, x = .ok b) ∧ ∀ P, d.place? p = .ok P → ¬e.HasFile P) := by
  rcases hr : d.removeFile p with ⟨r, d₁⟩
  rw [removeIfThere_eq, hr] at h
  obtain ⟨rfl, rfl⟩ := Prod.mk.inj h
  obtain ⟨hremoves, hcases⟩ := removeFile_cases hd hr
  refine ⟨hremoves, hcases.imp ?_ ?_⟩
  · rintro ⟨⟨err, rfl, hne⟩, hsame⟩
    exact ⟨⟨err, by cases err <;> first | rfl | exact absurd rfl (hne hp)⟩, hsame⟩
  · rintro ⟨hgone, hnone⟩
    refine ⟨?_, hnone⟩
    rcases hgone with rfl | rfl
    · exact ⟨true, rfl⟩
    · exact ⟨false, rfl⟩

/-- The attempt of a write or a removal failed at the unit of the stub. -/
def FailsAtUnit {α : Type} (c : Config) (name : String) (x : Except ShelfError α) : Prop :=
  ∃ err, x = .error (.remove (unitPath c name) err)

/-- Whatever fails while the stub of an item is written, if not the removal of its unit, the stubs
are in order afterwards, and those of the same items unless the stub was written. -/
theorem write_turns (hs : Site c I d) (h : HasStubs c I kept d)
    (hname : Naming.isItemName item.name = true)
    (hunit : ¬FailsAtUnit c item.name (write c d item).result) :
    ∃ kept', Turns c I ((write c d item).result = .ok true) kept kept' d (write c d item).disk := by
  revert hunit
  rw [write]
  dsimp only
  split
  · exact fun _ => ⟨kept, (Leaves.refl hs.regular).turns h⟩
  rcases hmake : d.makeFolders ((path c item.name).parent?.getD ⟨""⟩) with ⟨made, d₁⟩
  have hmade : Leaves (fun _ => True) d d₁ := leaves_makeFolders hs.regular hmake
  have hs₁ := hs.leaves hmade
  rcases made with err | ⟨⟩
  · exact fun _ => ⟨kept, hmade.turns h⟩
  dsimp only
  rcases hwrite : d₁.write (path c item.name) (Text.encode (text c.itemsNamespace item)) with
    ⟨written, d₂⟩
  obtain ⟨hother, hcases⟩ := write_cases_whole hs₁.regular hwrite fun P t hP ht =>
    hs₁.whole _ _ t hname (hs₁.aim_path hname ▸ eq_aim hP ▸ ht)
  rw [hs₁.aim_path hname] at hother hcases
  rcases hcases with ⟨hfailed, hsame⟩ | ⟨rfl, hP, x, hx⟩
  · -- nothing was written
    rcases written with err | ⟨⟩
    · exact fun _ => ⟨kept, (hmade.trans (.of_same hother.troubles hother.regular hsame)).turns h⟩
    · exact absurd rfl hfailed
  dsimp only
  have hs₂ := hs₁.leaves hother
  rcases hremove : removeIfThere d₂ (unitPath c item.name) with ⟨removed, d₃⟩
  have hbelow : I <+: d₂.aim (unitPath c item.name) := by
    rw [hs₂.aim_unitPath hname]
    exact List.prefix_append _ _
  obtain ⟨⟨hrest, -⟩, ⟨⟨err, rfl⟩, -⟩ | ⟨⟨b, rfl⟩, hgone⟩⟩ :=
    removeIfThere_cases hs₂.regular (hs₂.isHonest hbelow) hremove
  · exact fun hunit => absurd ⟨err, rfl⟩ hunit
  · rw [hs₂.aim_unitPath hname] at hrest
    intro _
    -- the stub is all that was written, and the unit all that was removed
    have hall : Leaves (fun Q => Q ≠ place c I item.name ∧ Q ≠ unitPlace c I item.name) d d₃ :=
      (hmade.mono fun _ _ => trivial).trans
        ((hother.mono fun _ hQ => hQ.1).trans (hrest.mono fun _ hQ => hQ.2))
    refine ⟨Function.update kept item.name (some item), ⟨hall.mono fun Q hQ => ?_,
      h.update (some item) hall ?_ ?_ (by simp) ?_, .inl rfl⟩⟩
    · exact ⟨fun heq => hQ (heq ▸ among_place c I item.name),
        fun heq => hQ (heq ▸ among_unitPlace c I item.name)⟩
    · rintro i ⟨⟩
      exact ⟨rfl, hname⟩
    · rintro i ⟨⟩
      exact ⟨hrest.place? (hother.place? hP),
        x, (hrest.file _ _ x (place_ne_unitPlace _ _)).mpr hx⟩
    · exact hgone _ (hs₂.place?_unitPath hname (hother.place? hP))

/-- Whatever fails while the stub of an item is removed, if not the removal of its unit, the stubs
are in order afterwards, and those of the same items unless the attempt says that it worked. -/
theorem remove_turns {x : Except ShelfError Bool} (hs : Site c I d) (h : HasStubs c I kept d)
    (hname : Naming.isItemName name = true) (hr : remove c d name = (x, e))
    (hunit : ¬FailsAtUnit c name x) :
    ∃ kept', Turns c I (∃ b, x = .ok b) kept kept' d e := by
  unfold remove at hr
  rcases hstub : removeIfThere d (path c name) with ⟨stub, d₁⟩
  rw [hstub] at hr
  have hbelow : I <+: d.aim (path c name) := by
    rw [hs.aim_path hname]
    exact List.prefix_append _ _
  obtain ⟨⟨hfirst, hfewer⟩, ⟨⟨err, rfl⟩, hsame⟩ | ⟨⟨b, rfl⟩, hgone⟩⟩ :=
    removeIfThere_cases hs.regular (hs.isHonest hbelow) hstub
  · cases hr
    exact ⟨kept, (Leaves.of_same hfirst.troubles hfirst.regular hsame).turns h⟩
  rw [hs.aim_path hname] at hfirst
  have hs₁ := hs.leaves hfirst
  dsimp only at hr
  rcases hremove : removeIfThere d₁ (unitPath c name) with ⟨unit, d₂⟩
  have hbelow₁ : I <+: d₁.aim (unitPath c name) := by
    rw [hs₁.aim_unitPath hname]
    exact List.prefix_append _ _
  obtain ⟨⟨hsecond, hfewer₁⟩, ⟨⟨err, rfl⟩, -⟩ | ⟨⟨b', rfl⟩, hgone₁⟩⟩ :=
    removeIfThere_cases hs₁.regular (hs₁.isHonest hbelow₁) hremove
  · rw [hremove] at hr
    cases hr
    exact absurd ⟨err, rfl⟩ hunit
  rw [hremove] at hr
  obtain ⟨rfl, rfl⟩ := Prod.mk.inj hr
  rw [hs₁.aim_unitPath hname] at hsecond
  have hall : Leaves (fun Q => Q ≠ place c I name ∧ Q ≠ unitPlace c I name) d d₂ :=
    (hfirst.mono fun _ hQ => hQ.1).trans (hsecond.mono fun _ hQ => hQ.2)
  refine ⟨Function.update kept name none, ⟨hall.mono fun Q hQ => ?_,
    h.update none hall (by simp) (by simp) (fun _ hfile => ?_) fun hfile => ?_, .inl ⟨_, rfl⟩⟩⟩
  · exact ⟨fun heq => hQ (heq ▸ among_place c I name),
      fun heq => hQ (heq ▸ among_unitPlace c I name)⟩
  -- a path that leads nowhere is that of no stub, and so of no unit
  · obtain ⟨i, hi⟩ := h.hasFile_place (hfewer (hfewer₁ hfile))
    exact hgone _ (h.path name i hi) (hfewer₁ hfile)
  · obtain ⟨i, hi⟩ := h.hasFile_unitPlace (hfewer (hfewer₁ hfile))
    exact hgone₁ _ (hs₁.place?_unitPath hname (hfirst.place? (h.path name i hi))) hfile

end Stub

/-! ### Shelves -/

/-- A note that tells that the unit of a stub could not be removed. -/
def IsStuck (c : Config) (n : Note) : Prop := ∃ front name err, Naming.isItemName name = true ∧
  n = note "error" (front ++ (ShelfError.remove (Stub.unitPath c name) err).text)

/-- Such a note says that something could not be removed. -/
theorem IsStuck.infix {n : Note} (h : IsStuck c n) :
    "failed to remove ".toList <:+: n.text.toList := by
  have hinfix (a b c d e : String) : a.toList <:+: (b ++ (a ++ c ++ d ++ e)).toList :=
    ⟨b.toList, (c ++ d ++ e).toList, by simp only [String.toList_append, List.append_assoc]⟩
  obtain ⟨front, name, err, -, rfl⟩ := h
  exact hinfix _ _ _ _ _

/-- None of some notes tells that the unit of a stub could not be removed. -/
def NoneStuck (c : Config) (notes : List Note) : Prop := ∀ n ∈ notes, ¬IsStuck c n

/-- An attempt whose error is told, and not told to be one at a unit, did not fail at the unit. -/
theorem Stub.not_failsAtUnit {α : Type} {r : Except ShelfError α}
    (hname : Naming.isItemName name = true)
    (h : ∀ err, r = .error err → ∃ front, ¬IsStuck c (note "error" (front ++ err.text))) :
    ¬FailsAtUnit c name r := by
  rintro ⟨err, rfl⟩
  obtain ⟨front, hno⟩ := h _ rfl
  exact hno ⟨front, name, err, hname, rfl⟩

namespace Shelf

variable {x y z : Shelf}

/-- A change is counted. -/
def Counts (x : Shelf) : Prop := 0 < x.written + x.removed

/-- What was counted and told is not taken back. -/
structure Grows (x y : Shelf) : Prop where
  counts : x.Counts → y.Counts
  notes : x.notes ⊆ y.notes

theorem Grows.refl : Grows x x := ⟨id, List.Subset.refl _⟩

theorem Grows.trans (h : Grows x y) (h' : Grows y z) : Grows x z :=
  ⟨h'.counts ∘ h.counts, List.Subset.trans h.notes h'.notes⟩

/-- What putting an item on a shelf comes to. -/
theorem put_cases (c : Config) (x : Shelf) (item : Item) :
    Naming.isItemName item.name = false ∧ (put c x item).disk = x.disk ∧ Grows x (put c x item) ∨
      Naming.isItemName item.name = true ∧
        (put c x item).disk = (Stub.write c x.disk item).disk ∧ Grows x (put c x item) ∧
        ((Stub.write c x.disk item).result = .ok true → (put c x item).Counts) ∧
        ∀ err, (Stub.write c x.disk item).result = .error err →
          note "error" err.text ∈ (put c x item).notes := by
  unfold put
  dsimp only
  cases hvalid : Naming.isItemName item.name with
  | false => exact .inl ⟨rfl, rfl, id, List.subset_append_left _ _⟩
  | true =>
    generalize Stub.write c x.disk item = done
    have hgrows : x.notes ⊆ x.notes ++ done.notes := List.subset_append_left _ _
    rcases hresult : done.result with err | _ | _
    · refine .inr ⟨rfl, rfl, ⟨id, List.Subset.trans hgrows (List.subset_append_left _ _)⟩, by simp, ?_⟩
      rintro _ ⟨⟩
      exact List.mem_append_right _ (List.mem_singleton_self _)
    · exact .inr ⟨rfl, rfl, ⟨id, hgrows⟩, by simp, by simp⟩
    · refine .inr ⟨rfl, rfl, ⟨fun _ => ?_, hgrows⟩, fun _ => ?_, by simp⟩ <;>
        simp only [Counts, Bool.not_true, Bool.false_eq_true, if_false] <;> omega

/-- What dropping an item from a shelf comes to. -/
theorem drop_cases {r : Except ShelfError Bool} (hr : Stub.remove c x.disk name = (r, d)) :
    (drop c x name).disk = d ∧ Grows x (drop c x name) ∧
      ((∃ b, r = .ok b) → (drop c x name).Counts) ∧
      ∀ err, r = .error err → note "error" err.text ∈ (drop c x name).notes := by
  unfold drop
  rw [hr]
  rcases r with err | b
  · refine ⟨rfl, ⟨id, List.subset_append_left _ _⟩, by simp, ?_⟩
    rintro _ ⟨⟩
    exact List.mem_append_right _ (List.mem_singleton_self _)
  · refine ⟨rfl, ⟨fun _ => ?_, List.Subset.refl _⟩, fun _ => ?_, by simp⟩ <;>
      simp only [Counts] <;> omega

theorem put_turns (hs : Site c I x.disk) (h : HasStubs c I kept x.disk)
    (hstuck : NoneStuck c (put c x item).notes) :
    ∃ kept', Turns c I (put c x item).Counts kept kept' x.disk (put c x item).disk := by
  obtain ⟨-, hdisk, -⟩ | ⟨hname, hdisk, -, hcounts, herror⟩ := put_cases c x item <;> rw [hdisk]
  · exact ⟨kept, (Leaves.refl hs.regular).turns h⟩
  · obtain ⟨kept', hturns⟩ := Stub.write_turns hs h hname
      (Stub.not_failsAtUnit hname fun err herr =>
        ⟨"", hstuck _ (by simpa using herror err herr)⟩)
    exact ⟨kept', hturns.imp hcounts⟩

theorem drop_turns (hs : Site c I x.disk) (h : HasStubs c I kept x.disk)
    (hname : Naming.isItemName name = true) (hstuck : NoneStuck c (drop c x name).notes) :
    ∃ kept', Turns c I (drop c x name).Counts kept kept' x.disk (drop c x name).disk := by
  rcases hr : Stub.remove c x.disk name with ⟨r, d⟩
  obtain ⟨hdisk, -, hcounts, herror⟩ := drop_cases hr
  obtain ⟨kept', hturns⟩ := Stub.remove_turns hs h hname hr
    (Stub.not_failsAtUnit hname fun err herr => ⟨"", hstuck _ (by simpa using herror err herr)⟩)
  rw [hdisk]
  exact ⟨kept', hturns.imp hcounts⟩

theorem foldl_grows {α : Type} {step : Shelf → α → Shelf} (hgrows : ∀ x a, Grows x (step x a))
    (xs : List α) (x : Shelf) : Grows x (xs.foldl step x) := by
  induction xs generalizing x with
  | nil => exact .refl
  | cons a rest ih => exact (hgrows x a).trans (ih (step x a))

/-- Step after step, the stubs stay in order, and what changes is counted. -/
theorem foldl_turns {α : Type} {step : Shelf → α → Shelf} (hgrows : ∀ x a, Grows x (step x a))
    {xs : List α} (hstep : ∀ a ∈ xs, ∀ (x : Shelf) (kept : String → Option Item), Site c I x.disk →
      HasStubs c I kept x.disk → NoneStuck c (step x a).notes →
      ∃ kept', Turns c I (step x a).Counts kept kept' x.disk (step x a).disk)
    (hs : Site c I x.disk) (h : HasStubs c I kept x.disk)
    (hstuck : NoneStuck c (xs.foldl step x).notes) :
    ∃ kept', Turns c I (xs.foldl step x).Counts kept kept' x.disk (xs.foldl step x).disk := by
  induction xs generalizing x kept with
  | nil => exact ⟨kept, (Leaves.refl hs.regular).turns h⟩
  | cons a rest ih =>
    have hrest := foldl_grows hgrows rest (step x a)
    obtain ⟨kept', hturns⟩ := hstep a List.mem_cons_self x kept hs h
      fun n hn => hstuck n (hrest.notes hn)
    obtain ⟨kept'', hturns'⟩ := ih (fun b hb => hstep b (List.mem_cons_of_mem a hb))
      (hs.leaves hturns.leaves) hturns.stubs hstuck
    exact ⟨kept'', (hturns.trans hturns').imp fun hor => hor.elim hrest.counts id⟩

end Shelf

/-- What is listed in the folder of the stubs are files there. -/
theorem Site.exists_of_mem_listed {q : Path} {ext : String} (h : Site c I d)
    (hq : q ∈ d.listed c.stubFolder ext) : ∃ file, Path.IsName file ∧
      (Path.cutName file).2 = some ext ∧ q = c.stubFolder.join ⟨file⟩ ∧
      d.HasFile (I ++ (Naming.segments c.itemsNamespace ++ [file])) := by
  obtain ⟨F, file, hF, -, hthere, rfl, hfile, hext⟩ :=
    (mem_listed h.regular).mp (mem_listed_calm hq)
  have hname : Path.IsName file := h.regular.tree.isName hthere
  have hplace := hasFile_of_isFile_join h.regular hname hF hfile
  rw [eq_aim (place?_calm.symm.trans hF), Stub.aim_stubFolder h.base, h.aim,
    List.append_assoc] at hplace
  rw [Path.hasExtension, extension?_join hname, beq_iff_eq] at hext
  exact ⟨file, hname, hext, rfl, hplace⟩

/-- The sources that are listed in the folder of the stubs are the stubs of items that are kept. -/
theorem HasStubs.exists_of_mem_listed {q : Path} (h : HasStubs c I kept d) (hs : Site c I d)
    (hq : q ∈ d.listed c.stubFolder Naming.sourceExtension) :
    ∃ n i, kept n = some i ∧ q = Stub.path c n := by
  obtain ⟨file, -, hext, rfl, hplace⟩ := hs.exists_of_mem_listed hq
  obtain ⟨n, i, hi, heq | heq⟩ := h.only _ ⟨_, .inl (endsWith_concat hext), rfl⟩ hplace <;>
    have hlast := List.singleton_inj.mp (List.append_cancel_left (List.append_cancel_left heq))
  · exact ⟨n, i, hi, by rw [hlast]; rfl⟩
  · rw [hlast, Stub.cutName_unitFile] at hext
    exact absurd (Option.some.inj hext) (by decide)

/-- Leftovers have the names of items. -/
theorem HasStubs.valid_of_mem_leftovers {known : List String} (h : HasStubs c I kept d) (hs : Site c I d)
    (hname : name ∈ Shelf.leftovers c d known) : Naming.isItemName name = true := by
  obtain ⟨q, hq, hitem⟩ := List.mem_filterMap.mp (List.mem_filter.mp hname).1
  obtain ⟨m, i, hi, rfl⟩ := h.exists_of_mem_listed hs hq
  have hm := h.valid hi
  rw [Shelf.itemOf?_path hm] at hitem
  exact Option.some.inj hitem ▸ hm

/-- Whatever fails while a shelf is filled, if not the removal of a unit, the stubs are in order
afterwards, and those of the same items unless something was counted. -/
theorem Shelf.fill_turns {items : List Item} (hs : Site c I d) (h : HasStubs c I kept d)
    (hstuck : NoneStuck c (fill c d items).notes) :
    ∃ kept', Turns c I (fill c d items).Counts kept kept' d (fill c d items).disk := by
  have hput (x : Shelf) (item : Item) : Grows x (put c x item) := by
    obtain ⟨-, -, hgrows⟩ | ⟨-, -, hgrows, -⟩ := put_cases c x item <;> exact hgrows
  have hdrop (x : Shelf) (name : String) : Grows x (drop c x name) := (drop_cases rfl).2.1
  unfold fill at hstuck ⊢
  dsimp only at hstuck ⊢
  have hstuck' : NoneStuck c (List.foldl (drop c) (items.foldl (put c) { disk := d })
      (leftovers c (items.foldl (put c) { disk := d }).disk (items.map (·.name)))).notes :=
    fun n hn => hstuck n (List.mem_append_left _ hn)
  obtain ⟨kept', hputs⟩ := foldl_turns (x := { disk := d }) hput (fun _ _ _ _ => put_turns) hs h
    fun n hn => hstuck' n ((foldl_grows hdrop _ _).notes hn)
  generalize items.foldl (put c) { disk := d } = x at hputs hstuck' ⊢
  have hx := hs.leaves hputs.leaves
  obtain ⟨kept'', hdrops⟩ := foldl_turns hdrop
    (fun name hname y kept hy hk => drop_turns hy hk (hputs.stubs.valid_of_mem_leftovers hx hname))
    hx hputs.stubs hstuck'
  have hcounted := (hputs.trans hdrops).imp
    fun hor => hor.elim (foldl_grows hdrop _ _).counts id
  generalize (leftovers c x.disk (items.map (·.name))).foldl (drop c) x = y at hcounted ⊢
  exact ⟨kept'', hcounted.imp fun hy => by unfold Counts at hy ⊢; exact hy⟩

end LiveRules
