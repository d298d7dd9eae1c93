import LiveRules.Proofs.Item.Events
import LiveRules.Proofs.Item.Packing

/-!
What an earlier run has left on a disk. When a shelf is filled, the stubs of the items are put over
what lies there, and every other stub is removed with its unit. A unit without a stub is not taken
notice of: unless it is that of an item, it stays.
-/

namespace LiveRules

open Disk RegistryEvent

variable {c : Config} {I J K : Place} {N : String → Prop} {R : Item → Prop} {d e : Disk}
variable {kept : String → Option Item} {item : Item} {items : List Item} {name : String}
variable {known names : List String} {old : Text.Bytes → Prop} {q : Path}

/-- The stubs of some items were put over what lay there; their units are gone, or lie there as they
did beside the same stubs. Nothing else changed. -/
structure PutOver (c : Config) (I : Place) (kept : String → Option Item) (d e : Disk) : Prop where
  stub : ∀ n i, kept n = some i → ∃ x, e.entry? (Stub.place c I n) =
    some (.file (Text.encode (Stub.text c.itemsNamespace i)) x)
  unit : ∀ n i, kept n = some i → e.entry? (Stub.unitPlace c I n) = none ∨
    (e.entry? (Stub.unitPlace c I n) = d.entry? (Stub.unitPlace c I n) ∧
      ∃ x, d.entry? (Stub.place c I n) =
        some (.file (Text.encode (Stub.text c.itemsNamespace i)) x))
  other : ∀ Q, (∀ n, (kept n).isSome = true → Q ≠ Stub.place c I n ∧ Q ≠ Stub.unitPlace c I n) →
    e.entry? Q = d.entry? Q

namespace PutOver

theorem refl : PutOver c I (fun _ => none) d d :=
  ⟨fun n i hi => (by cases hi), fun n i hi => (by cases hi), fun _ _ => rfl⟩

/-- At the places of an item that is not kept nothing changed. -/
theorem places (h : PutOver c I kept d e) (hnone : kept name = none) :
    e.entry? (Stub.place c I name) = d.entry? (Stub.place c I name) ∧
      e.entry? (Stub.unitPlace c I name) = d.entry? (Stub.unitPlace c I name) := by
  have hne {n : String} (hn : (kept n).isSome = true) : name ≠ n := by
    rintro rfl
    rw [hnone] at hn
    cases hn
  exact ⟨h.other _ fun n hn => ⟨fun heq => hne hn (Stub.place_injective heq),
      Stub.place_ne_unitPlace name n⟩,
    h.other _ fun n hn => ⟨(Stub.place_ne_unitPlace n name).symm,
      fun heq => hne hn (Stub.unitPlace_injective heq)⟩⟩

/-- One more stub is put, and its unit is dealt with. -/
theorem update {f : Disk} (h : PutOver c I kept d e)
    (hstub : ∃ x, f.entry? (Stub.place c I item.name) =
      some (.file (Text.encode (Stub.text c.itemsNamespace item)) x))
    (hunit : f.entry? (Stub.unitPlace c I item.name) = none ∨
      (f.entry? (Stub.unitPlace c I item.name) = d.entry? (Stub.unitPlace c I item.name) ∧
        ∃ x, d.entry? (Stub.place c I item.name) =
          some (.file (Text.encode (Stub.text c.itemsNamespace item)) x)))
    (hother : ∀ Q, Q ≠ Stub.place c I item.name → Q ≠ Stub.unitPlace c I item.name →
      f.entry? Q = e.entry? Q) :
    PutOver c I (Function.update kept item.name (some item)) d f := by
  refine ⟨fun n i hi => ?_, fun n i hi => ?_, fun Q hQ => ?_⟩
  · by_cases hn : n = item.name
    · subst hn
      rw [Function.update_self] at hi
      cases hi
      exact hstub
    · rw [Function.update_of_ne hn] at hi
      rw [hother _ (fun heq => hn (Stub.place_injective heq)) (Stub.place_ne_unitPlace n _)]
      exact h.stub n i hi
  · by_cases hn : n = item.name
    · subst hn
      rw [Function.update_self] at hi
      cases hi
      exact hunit
    · rw [Function.update_of_ne hn] at hi
      rw [hother _ (Stub.place_ne_unitPlace _ n).symm fun heq => hn (Stub.unitPlace_injective heq)]
      exact h.unit n i hi
  · obtain ⟨hplace, hunitPlace⟩ := hQ item.name (by rw [Function.update_self]; rfl)
    rw [hother Q hplace hunitPlace]
    refine h.other Q fun n hn => hQ n ?_
    by_cases heq : n = item.name
    · rw [heq, Function.update_self]
      rfl
    · rw [Function.update_of_ne heq]
      exact hn

end PutOver

/-- The stubs of some names were removed with their units, and nothing else. -/
structure Dropped (c : Config) (I : Place) (names : List String) (d e : Disk) : Prop where
  gone : ∀ n ∈ names, e.entry? (Stub.place c I n) = none ∧ e.entry? (Stub.unitPlace c I n) = none
  other : ∀ Q, (∀ n ∈ names, Q ≠ Stub.place c I n ∧ Q ≠ Stub.unitPlace c I n) →
    e.entry? Q = d.entry? Q

/-- At the places of names that were not dropped nothing changed. -/
theorem Dropped.places (h : Dropped c I names d e) (hname : name ∉ names) :
    e.entry? (Stub.place c I name) = d.entry? (Stub.place c I name) ∧
      e.entry? (Stub.unitPlace c I name) = d.entry? (Stub.unitPlace c I name) := by
  have hne {n : String} (hn : n ∈ names) : name ≠ n := fun heq => hname (heq ▸ hn)
  exact ⟨h.other _ fun n hn => ⟨fun heq => hne hn (Stub.place_injective heq),
      Stub.place_ne_unitPlace name n⟩,
    h.other _ fun n hn => ⟨(Stub.place_ne_unitPlace n name).symm,
      fun heq => hne hn (Stub.unitPlace_injective heq)⟩⟩

theorem Dropped.hasFile (h : Dropped c I names d e) {Q : Place} (hfile : e.HasFile Q) :
    d.HasFile Q := by
  obtain ⟨content, x, hx⟩ := hfile
  by_cases hQ : ∃ n ∈ names, Q = Stub.place c I n ∨ Q = Stub.unitPlace c I n
  · obtain ⟨n, hn, rfl | rfl⟩ := hQ
    · cases (h.gone n hn).1.symm.trans hx
    · cases (h.gone n hn).2.symm.trans hx
  · refine ⟨content, x, (h.other Q fun n hn => ⟨?_, ?_⟩).symm.trans hx⟩
    · exact fun heq => hQ ⟨n, hn, .inl heq⟩
    · exact fun heq => hQ ⟨n, hn, .inr heq⟩

namespace RegistryEvent

end RegistryEvent

namespace Shelf

variable {x : Shelf}

end Shelf

/-- What earlier runs have left was tidied for some items: these have their units, and the units of
others are gone if their stubs lay beside them. Units without a stub are as they were. -/
structure Tidied (c : Config) (I : Place) (N : String → Prop) (items : List Item) (d e : Disk) :
    Prop where
  registered : ∀ i ∈ items, e.HasFile (Stub.unitPlace c I i.name)
  gone : ∀ n, N n → n ∉ items.map Item.name → d.HasFile (Stub.place c I n) →
    e.entry? (Stub.unitPlace c I n) = none
  orphan : ∀ n, N n → n ∉ items.map Item.name → ¬d.HasFile (Stub.place c I n) →
    e.entry? (Stub.unitPlace c I n) = d.entry? (Stub.unitPlace c I n)

theorem Tidied.hasFile_unit_iff (h : Tidied c I N items d e) (hname : N name) :
    e.HasFile (Stub.unitPlace c I name) ↔ (∃ i ∈ items, i.name = name) ∨
      (d.HasFile (Stub.unitPlace c I name) ∧ ¬d.HasFile (Stub.place c I name)) := by
  by_cases hknown : ∃ i ∈ items, i.name = name
  · obtain ⟨i, hi, rfl⟩ := hknown
    exact iff_of_true (h.registered i hi) (.inl ⟨i, hi, rfl⟩)
  · have hunknown : name ∉ items.map Item.name := fun hno => hknown (List.mem_map.mp hno)
    rw [or_iff_right hknown]
    by_cases hfile : d.HasFile (Stub.place c I name)
    · rw [HasFile, h.gone name hname hunknown hfile]
      refine iff_of_false ?_ fun hno => hno.2 hfile
      rintro ⟨content, x, hx⟩
      cases hx
    · rw [and_iff_left hfile, HasFile, HasFile, h.orphan name hname hunknown hfile]

end LiveRules
