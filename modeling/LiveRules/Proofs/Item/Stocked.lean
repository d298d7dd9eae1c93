import LiveRules.Proofs.Item.Room
import Mathlib.Logic.Function.Basic

/-!
Stubs in line with items. While items come and go, the stubs on a disk are those of the items that
are kept, and a unit lies there only as long as its stub says what it said when it was compiled.
-/

namespace LiveRules

open Disk

variable {c : Config} {I J K : Place} {N : String → Prop} {R : Item → Prop} {d e : Disk}
variable {kept : String → Option Item} {item : Item} {name : String}

/-- The items that are kept under their names are among the ones that there is room for. -/
def AreKept (N : String → Prop) (R : Item → Prop) (kept : String → Option Item) : Prop :=
  ∀ n i, kept n = some i → N n ∧ i.name = n ∧ R i

/-- The files that a pass over stubs or a packing takes notice of. -/
def IsSourceOrUnit (names : List String) : Prop :=
  endsWith names Naming.sourceExtension = true ∨ endsWith names Naming.artifactExtension = true

/-- The stubs of some items lie on a disk, and units for some of them, and below the place of the
items there are no other sources and units. -/
structure Stocked (c : Config) (I : Place) (kept : String → Option Item) (d : Disk) : Prop where
  stub : ∀ n i, kept n = some i → ∃ x, d.entry? (Stub.place c I n) =
    some (.file (Text.encode (Stub.text c.itemsNamespace i)) x)
  unit : ∀ n i, kept n = some i → d.entry? (Stub.unitPlace c I n) = none ∨
    ∃ x, d.entry? (Stub.unitPlace c I n) =
      some (.file (Text.encode (Stub.unit c.itemsNamespace i).text) x)
  only : ∀ names, IsSourceOrUnit names → d.HasFile (I ++ names) → ∃ n, (kept n).isSome = true ∧
    (I ++ names = Stub.place c I n ∨ I ++ names = Stub.unitPlace c I n)

/-- Different stubs have different hashes, and none has the hash of a missing file. -/
structure TellsApart (base : String) (R : Item → Prop) : Prop where
  injective : ∀ i j, R i → R j →
    ContentHash.ofText (Stub.text base i) = ContentHash.ofText (Stub.text base j) →
    Stub.text base i = Stub.text base j
  present : ∀ i, R i → ContentHash.ofText (Stub.text base i) ≠ .none

theorem isSourceOrUnit_place (c : Config) (name : String) :
    IsSourceOrUnit (Naming.segments c.itemsNamespace ++ [Stub.fileName name]) :=
  .inl (Stub.endsWith_fileName name)

theorem isSourceOrUnit_unitPlace (c : Config) (name : String) :
    IsSourceOrUnit (Naming.segments c.itemsNamespace ++ [Stub.unitFile name]) :=
  .inr (Stub.endsWith_unitFile name)

/-- Where no item is kept there is no stub. -/
theorem Stocked.no_stub (h : Stocked c I kept d) (hroom : Room c I J K N d) (hname : N name)
    (hnone : kept name = none) : d.entry? (Stub.place c I name) = none := by
  rcases hentry : d.entry? (Stub.place c I name) with _ | ⟨content, x⟩ | _
  · rfl
  · obtain ⟨n, hn, hplace | hplace⟩ :=
      h.only _ (isSourceOrUnit_place c name) ⟨content, x, hentry⟩
    · rw [← Stub.place_injective hplace, hnone] at hn
      cases hn
    · exact absurd hplace (Stub.place_ne_unitPlace name n)
  · exact absurd hentry (hroom.stub name hname).free

/-- What is kept may change with the stub of one item, if the unit of that item is gone. -/
theorem Stocked.update (h : Stocked c I kept d) (name : String) (o : Option Item)
    (hstub : match o with
      | some i => ∃ x, e.entry? (Stub.place c I name) =
        some (.file (Text.encode (Stub.text c.itemsNamespace i)) x)
      | none => e.entry? (Stub.place c I name) = none)
    (hunit : e.entry? (Stub.unitPlace c I name) = none)
    (hother : ∀ Q, Q ≠ Stub.place c I name → Q ≠ Stub.unitPlace c I name →
      e.entry? Q = d.entry? Q) : Stocked c I (Function.update kept name o) e := by
  have hplaces {n : String} (hn : n ≠ name) :
      e.entry? (Stub.place c I n) = d.entry? (Stub.place c I n) ∧
        e.entry? (Stub.unitPlace c I n) = d.entry? (Stub.unitPlace c I n) :=
    ⟨hother _ (fun he => hn (Stub.place_injective he)) (Stub.place_ne_unitPlace n name),
      hother _ (Stub.place_ne_unitPlace name n).symm fun he => hn (Stub.unitPlace_injective he)⟩
  refine ⟨fun n i hi => ?_, fun n i hi => ?_, fun names hnames hfile => ?_⟩
  · by_cases hn : n = name
    · subst hn
      rw [Function.update_self] at hi
      subst hi
      exact hstub
    · rw [Function.update_of_ne hn] at hi
      rw [(hplaces hn).1]
      exact h.stub n i hi
  · by_cases hn : n = name
    · subst hn
      exact .inl hunit
    · rw [Function.update_of_ne hn] at hi
      rw [(hplaces hn).2]
      exact h.unit n i hi
  · by_cases hplace : I ++ names = Stub.place c I name
    · refine ⟨name, ?_, .inl hplace⟩
      rw [Function.update_self]
      obtain ⟨content, x, hx⟩ := hfile
      rw [hplace] at hx
      cases o with
      | none => cases hstub.symm.trans hx
      | some i => rfl
    · have hne : I ++ names ≠ Stub.unitPlace c I name := by
        intro hno
        obtain ⟨content, x, hx⟩ := hfile
        rw [hno, hunit] at hx
        cases hx
      obtain ⟨content, x, hx⟩ := hfile
      rw [hother _ hplace hne] at hx
      obtain ⟨n, hn, hor⟩ := h.only names hnames ⟨content, x, hx⟩
      refine ⟨n, ?_, hor⟩
      rw [Function.update_of_ne ?_]
      · exact hn
      · rintro rfl
        rcases hor with he | he
        · exact hplace he
        · exact hne he

/-- The sources and units below the place of the items are all that counts. -/
theorem Stocked.congr (h : Stocked c I kept d)
    (heq : ∀ names, IsSourceOrUnit names → e.entry? (I ++ names) = d.entry? (I ++ names)) :
    Stocked c I kept e := by
  refine ⟨fun n i hi => ?_, fun n i hi => ?_, fun names hnames hfile => ?_⟩
  · rw [Stub.place, heq _ (isSourceOrUnit_place c n)]
    exact h.stub n i hi
  · rw [Stub.unitPlace, heq _ (isSourceOrUnit_unitPlace c n)]
    exact h.unit n i hi
  · obtain ⟨content, x, hx⟩ := hfile
    rw [heq names hnames] at hx
    exact h.only names hnames ⟨content, x, hx⟩

/-! ### Writing and removing stubs -/

namespace Stub

theorem removeIfThere_spec {p : Path} {P : Place} (hp : d.Accepts p P) (hd : d.Regular) :
    ∃ b d', removeIfThere d p = (.ok b, d') ∧ d'.Regular ∧ Sets P none d d' := by
  obtain ⟨r, d', hr, hok | hmissing, hd', hsets⟩ := hp.removeFile hd
  · subst hok
    exact ⟨true, d', by rw [removeIfThere, hr], hd', hsets⟩
  · subst hmissing
    exact ⟨false, d', by rw [removeIfThere, hr], hd', hsets⟩

/-- The stub of an item is written, and its unit removed, unless the stub is there already. -/
theorem write_spec (hroom : Room c I J K N d) (hstocked : Stocked c I kept d)
    (hkept : AreKept N R kept) (htells : TellsApart c.itemsNamespace R)
    (hvalid : ∀ n, N n → Naming.isItemName n = true) (hname : N item.name) (hitem : R item) :
    ∃ b, (write c d item).result = .ok b ∧ Room c I J K N (write c d item).disk ∧
      Stocked c I (Function.update kept item.name (some item)) (write c d item).disk ∧
      (b = false → (write c d item).disk = d ∧
        Function.update kept item.name (some item) = kept) := by
  have hstubPath := hroom.stub item.name hname
  rw [write]
  dsimp only
  by_cases hsame : ContentHash.ofFile d (path c item.name) =
      .ofText (text c.itemsNamespace item)
  · -- the file has the hash of the new stub, so it is that stub
    have hold : kept item.name = some item := by
      rcases hentry : kept item.name with _ | old
      · have hnone := hstocked.no_stub hroom hname hentry
        have hread : ContentHash.ofFile d (path c item.name) = .none := by
          rw [ContentHash.ofFile]
          rcases hread : d.read (path c item.name) with err | content
          · rfl
          · obtain ⟨P, x, hP, hx⟩ := (read_eq_ok_iff hroom.regular.sound).mp hread
            obtain rfl : place c I item.name = P := Except.ok.inj (hstubPath.place.symm.trans hP)
            cases hnone.symm.trans hx
        rw [hread] at hsame
        exact absurd hsame.symm (htells.present item hitem)
      · obtain ⟨x, hx⟩ := hstocked.stub item.name old hentry
        obtain ⟨-, holdName, hold⟩ := hkept item.name old hentry
        rw [ContentHash.ofFile, hstubPath.read hroom.regular.sound hx] at hsame
        have heq := htells.injective old item hold hitem hsame
        have hitemName := hvalid item.name hname
        rw [text_injective (holdName ▸ hitemName) hitemName heq]
    have hupdate : Function.update kept item.name (some item) = kept :=
      Function.update_eq_self_iff.mpr hold.symm
    rw [if_pos hsame, hupdate]
    exact ⟨false, rfl, hroom, hstocked, fun _ => ⟨rfl, rfl⟩⟩
  · rw [if_neg hsame]
    obtain ⟨d₁, hmake, h₁, hsame₁⟩ := makeFolders_parent hroom.regular
      (isName_fileName (hvalid item.name hname)) hroom.stubs hroom.stubFolder
    rw [show path c item.name = c.stubFolder.join ⟨fileName item.name⟩ from rfl, hmake]
    dsimp only
    have hroom₁ := hroom.sameFolders h₁ hsame₁.sameFolders
    obtain ⟨d₂, hwrite, h₂, hsets₂⟩ := (hroom₁.stub item.name hname).write h₁
      (Text.encode (text c.itemsNamespace item))
    rw [show c.stubFolder.join ⟨fileName item.name⟩ = path c item.name from rfl, hwrite]
    dsimp only
    have hroom₂ := hroom₁.sets h₂ hsets₂ (hroom₁.stub item.name hname).free (by simp)
    obtain ⟨b, d₃, hremove, h₃, hsets₃⟩ := removeIfThere_spec (hroom₂.unit item.name hname) h₂
    rw [hremove]
    refine ⟨true, rfl, ?_, ?_, fun hno => by cases hno⟩
    · exact hroom₂.sets h₃ hsets₃ (hroom₂.unit item.name hname).free (by simp)
    · refine hstocked.update item.name (some item)
        ⟨d₁.isExecutable (place c I item.name), ?_⟩ ?_ fun Q hplace hunit => ?_
      · rw [ hsets₃.entry?, if_neg (place_ne_unitPlace _ _), hsets₂.entry?, if_pos rfl]
      · rw [ hsets₃.entry?, if_pos rfl]
      · rw [ hsets₃.entry?, if_neg hunit, hsets₂.entry?, if_neg hplace, hsame₁.entry?]

theorem remove_sets (hroom : Room c I J K N d) (hname : N name) : ∃ b d',
    remove c d name = (.ok b, d') ∧ Room c I J K N d' ∧
      ∀ Q, d'.entry? Q =
        if Q = unitPlace c I name then none else if Q = place c I name then none else d.entry? Q := by
  obtain ⟨b, d₁, hstub, h₁, hsets₁⟩ := removeIfThere_spec (hroom.stub name hname) hroom.regular
  have hroom₁ := hroom.sets h₁ hsets₁ (hroom.stub name hname).free (by simp)
  obtain ⟨b', d₂, hunit, h₂, hsets₂⟩ := removeIfThere_spec (hroom₁.unit name hname) h₁
  refine ⟨b || b', d₂, ?_, ?_, fun Q => ?_⟩
  · unfold remove
    rw [hstub]
    dsimp only
    rw [hunit]
  · exact hroom₁.sets h₂ hsets₂ (hroom₁.unit name hname).free (by simp)
  · rw [ hsets₂.entry?, hsets₁.entry?]

/-- The stub of an item is removed with its unit. -/
theorem remove_spec (hroom : Room c I J K N d) (hstocked : Stocked c I kept d) (hname : N name) :
    ∃ b d', remove c d name = (.ok b, d') ∧ Room c I J K N d' ∧
      Stocked c I (Function.update kept name none) d' := by
  obtain ⟨b, d', hremove, hroom', hentry⟩ := remove_sets hroom hname
  refine ⟨b, d', hremove, hroom', hstocked.update name none ?_ ?_ fun Q hplace hunit => ?_⟩
  · show d'.entry? (place c I name) = none
    rw [hentry, if_pos rfl, ite_self]
  · rw [hentry, if_pos rfl]
  · rw [hentry, if_neg hunit, if_neg hplace]

end Stub

end LiveRules
