import LiveRules.Item.Shelf
import LiveRules.Proofs.Item.Passes

/-!
Events of a registry. The last event about a name decides whether there is an item of that name,
however the events about other names are mixed with it. A shelf that is filled anew holds what it
would hold if all items had just been added.
-/

namespace LiveRules

open Disk

variable {c : Config} {I J K : Place} {N : String → Prop} {R : Item → Prop} {d e : Disk}
variable {kept : String → Option Item}

/-! ### What events come to -/

/-- What an event leaves of the item with its name. -/
def RegistryEvent.item? : RegistryEvent → Option Item
  | .added item | .updated item => some item
  | .removed _ => none

/-- The events about one name. -/
def RegistryEvent.about (name : String) (events : List RegistryEvent) : List RegistryEvent :=
  events.filter fun e => e.name = name

/-- The items that are there after some events, under their names: the last event about a name
decides, and events about names that are none are ignored. -/
def RegistryEvent.keptAfter (events : List RegistryEvent) (name : String) : Option Item :=
  if Naming.isItemName name then (about name events).getLast?.bind item? else none

namespace RegistryEvent

variable {events : List RegistryEvent} {event : RegistryEvent} {name : String} {item : Item}

theorem name_of_item? (h : event.item? = some item) : event.name = item.name := by
  cases event <;> simp_all [item?, RegistryEvent.name]

/-- Without events nothing is kept. -/
theorem keptAfter_nil : keptAfter [] = fun _ => none := by
  funext name
  rw [keptAfter]
  exact ite_self none

theorem keptAfter_append (events : List RegistryEvent) (event : RegistryEvent) :
    keptAfter (events ++ [event]) =
      if Naming.isItemName event.name then
        Function.update (keptAfter events) event.name event.item?
      else keptAfter events := by
  funext name
  rw [keptAfter, about, List.filter_append]
  by_cases hname : event.name = name
  · subst hname
    rw [List.filter_cons_of_pos (by simp), List.filter_nil, List.getLast?_concat, Option.bind_some]
    by_cases hvalid : Naming.isItemName event.name = true
    · rw [if_pos hvalid, if_pos hvalid, Function.update_self]
    · rw [if_neg hvalid, if_neg hvalid, keptAfter, if_neg hvalid]
  · rw [List.filter_cons_of_neg (by simpa using hname), List.filter_nil, List.append_nil]
    by_cases hvalid : Naming.isItemName event.name = true
    · rw [if_pos hvalid, Function.update_of_ne (Ne.symm hname)]
      rfl
    · rw [if_neg hvalid]
      rfl

theorem keptAfter_added (events : List RegistryEvent) (item : Item) :
    keptAfter (events ++ [.added item]) =
      if Naming.isItemName item.name then
        Function.update (keptAfter events) item.name (some item)
      else keptAfter events := keptAfter_append events (.added item)

theorem exists_of_keptAfter (h : keptAfter events name = some item) :
    Naming.isItemName name = true ∧ ∃ event ∈ events, event.name = name ∧ event.item? = some item := by
  rw [keptAfter] at h
  split at h
  · rename_i hvalid
    obtain ⟨event, hlast, hitem⟩ := Option.bind_eq_some_iff.mp h
    obtain ⟨hmem, hname⟩ := List.mem_filter.mp (List.mem_of_getLast? hlast)
    exact ⟨hvalid, event, hmem, by simpa using hname, hitem⟩
  · cases h

/-- The names of items that some events are about. -/
def Names (events : List RegistryEvent) (name : String) : Prop :=
  Naming.isItemName name = true ∧ ∃ event ∈ events, event.name = name

/-- The items that some events tell about. -/
def Tells (events : List RegistryEvent) (item : Item) : Prop :=
  Naming.isItemName item.name = true ∧ ∃ event ∈ events, event.item? = some item

theorem areKept {all : List RegistryEvent} (h : ∀ event ∈ events, event ∈ all) :
    AreKept (Names all) (Tells all) (keptAfter events) := by
  intro name item hitem
  obtain ⟨hvalid, event, hmem, hname, hevent⟩ := exists_of_keptAfter hitem
  have heq : item.name = name := (name_of_item? hevent).symm.trans hname
  exact ⟨⟨hvalid, event, h event hmem, hname⟩, heq, heq ▸ hvalid, event, h event hmem, hevent⟩

end RegistryEvent

/-! ### Filling a shelf -/

namespace Shelf

open RegistryEvent

variable {all events : List RegistryEvent} {item : Item} {x : Shelf}

/-- The stub of an item is put on the shelf as if the item had just been added. -/
theorem put_spec (hroom : Room c I J K (Names all) x.disk)
    (hstocked : Stocked c I (keptAfter events) x.disk) (hall : ∀ event ∈ events, event ∈ all)
    (hitem : .added item ∈ all) (htells : TellsApart c.itemsNamespace (Tells all)) :
    Room c I J K (Names all) (put c x item).disk ∧
      Stocked c I (keptAfter (events ++ [.added item])) (put c x item).disk := by
  rw [keptAfter_added]
  unfold put
  dsimp only
  by_cases hvalid : Naming.isItemName item.name = true
  · obtain ⟨b, hb, hroom', hstocked', -⟩ := Stub.write_spec hroom hstocked (areKept hall) htells
      (fun n hn => hn.1) ⟨hvalid, .added item, hitem, rfl⟩ ⟨hvalid, .added item, hitem, rfl⟩
    rw [if_neg (by simpa using hvalid), if_pos hvalid, hb]
    cases b <;> exact ⟨hroom', hstocked'⟩
  · rw [if_pos (by simpa using hvalid), if_neg hvalid]
    exact ⟨hroom, hstocked⟩

theorem puts_spec (items : List Item) (hroom : Room c I J K (Names all) x.disk)
    (hstocked : Stocked c I (keptAfter events) x.disk)
    (hall : ∀ event ∈ events ++ items.map .added, event ∈ all)
    (htells : TellsApart c.itemsNamespace (Tells all)) :
    Room c I J K (Names all) (items.foldl (put c) x).disk ∧
      Stocked c I (keptAfter (events ++ items.map .added)) (items.foldl (put c) x).disk := by
  induction items generalizing events x with
  | nil =>
    rw [List.map_nil, List.append_nil]
    exact ⟨hroom, hstocked⟩
  | cons item rest ih =>
    obtain ⟨hroom', hstocked'⟩ := put_spec hroom hstocked
      (fun event hevent => hall event (List.mem_append_left _ hevent))
      (hall _ (List.mem_append_right _ List.mem_cons_self)) htells
    rw [List.map_cons, List.append_cons] at hall ⊢
    exact ih hroom' hstocked' hall

theorem itemOf?_path {name : String} (h : Naming.isItemName name = true) :
    Stub.itemOf? (Stub.path c name) = some name := by
  rw [Stub.itemOf?, Stub.stem_path h, Stub.unitName, String.toList_append,
    isPrefixOf?_eq_some_iff.mpr rfl]
  exact congrArg some String.ofList_toList

/-- A shelf that holds the stubs of known items has no leftovers. -/
theorem leftovers_eq_nil {known : List String} (hroom : Room c I J K N d)
    (hstocked : Stocked c I kept d) (hkept : AreKept N R kept)
    (hvalid : ∀ n, N n → Naming.isItemName n = true)
    (hknown : ∀ n i, kept n = some i → n ∈ known) : leftovers c d known = [] := by
  refine List.filter_eq_nil_iff.mpr fun n hn => ?_
  obtain ⟨q, hq, hitem⟩ := List.mem_filterMap.mp hn
  obtain ⟨m, i, hi, rfl⟩ := (hstocked.mem_listed_stubs hroom hkept hvalid).mp hq
  rw [itemOf?_path (hvalid m (hkept m i hi).1)] at hitem
  obtain rfl := Option.some.inj hitem
  simpa using hknown m i hi

/-- A shelf without stubs that is filled holds the stubs of the items that were added. -/
theorem fill_spec {items : List Item} (hroom : Room c I J K (Names all) d)
    (hstocked : Stocked c I (keptAfter []) d) (hall : ∀ event ∈ items.map .added, event ∈ all)
    (htells : TellsApart c.itemsNamespace (Tells all)) :
    Room c I J K (Names all) (fill c d items).disk ∧
      Stocked c I (keptAfter (items.map .added)) (fill c d items).disk := by
  obtain ⟨hroom', hstocked'⟩ := puts_spec (x := { disk := d }) items hroom hstocked hall htells
  rw [List.nil_append] at hstocked'
  have hnone : leftovers c _ (items.map (·.name)) = [] :=
    leftovers_eq_nil hroom' hstocked' (areKept hall) (fun n hn => hn.1) fun n i hi => by
      obtain ⟨-, event, hevent, rfl, -⟩ := exists_of_keptAfter hi
      obtain ⟨item, hitem, rfl⟩ := List.mem_map.mp hevent
      exact List.mem_map.mpr ⟨item, hitem, rfl⟩
  unfold fill
  dsimp only
  rw [hnone]
  exact ⟨hroom', hstocked'⟩

end Shelf

end LiveRules
