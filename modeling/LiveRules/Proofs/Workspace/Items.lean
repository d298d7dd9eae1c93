import LiveRules.Proofs.Item.Events
import LiveRules.Proofs.Item.Packing
import LiveRules.Workspace.Lifecycle

/-!
Items follow their registry. However the events of a registry are grouped, the pack of the items
holds in the end one unit for each item whose last event left it there, and nothing else, as long
as the units of the rules are stored elsewhere.
-/

namespace LiveRules

open Disk

variable {c : Config} {I J K : Place} {N : String → Prop} {R : Item → Prop} {d e : Disk}
variable {kept : String → Option Item}

namespace Workspace

open RegistryEvent

variable {w : Workspace} {all events : List RegistryEvent} {event : RegistryEvent}

/-! ### Steps -/

/-- The stubs of a workspace are those of the items that are kept, and so is the pack unless the
workspace knows that it is behind. -/
structure InStep (c : Config) (I J K : Place) (N : String → Prop) (kept : String → Option Item)
    (w : Workspace) : Prop where
  config : w.config = c
  tool : w.tool = .builtin
  phase : w.phase ≠ .disposed
  room : Room c I J K N w.disk
  stocked : Stocked c I kept w.disk
  packed : w.itemsStale = false → Packed c J kept w.disk

theorem InStep.tell (h : InStep c I J K N kept w) (notes : List Note) :
    InStep c I J K N kept (w.tell notes) :=
  ⟨h.config, h.tool, h.phase, h.room, h.stocked, h.packed⟩

/-- What becomes of a stub is taken note of. -/
theorem InStep.shelved {kept' : String → Option Item} {b : Bool} (h : InStep c I J K N kept w)
    (hroom : Room c I J K N d) (hstocked : Stocked c I kept' d)
    (hsame : b = false → d = w.disk ∧ kept' = kept) (notes : List Note) :
    InStep c I J K N kept' ({ w with disk := d, itemsStale := b || w.itemsStale }.tell notes) := by
  cases b with
  | true => exact ⟨h.config, h.tool, h.phase, hroom, hstocked, fun hno => by cases hno⟩
  | false =>
    obtain ⟨rfl, rfl⟩ := hsame rfl
    exact ⟨h.config, h.tool, h.phase, hroom, hstocked, h.packed⟩

/-- One event keeps a workspace in step. -/
theorem InStep.applyEvent (h : InStep c I J K (Names all) (keptAfter events) w)
    (hall : ∀ event ∈ events, event ∈ all) (hevent : event ∈ all)
    (htells : TellsApart c.itemsNamespace (Tells all)) :
    InStep c I J K (Names all) (keptAfter (events ++ [event])) (w.applyEvent event) := by
  obtain rfl := h.config
  rw [keptAfter_append]
  unfold Workspace.applyEvent
  dsimp only
  by_cases hvalid : Naming.isItemName event.name = true
  · have hname : Names all event.name := ⟨hvalid, event, hevent, rfl⟩
    have hwritten {item : Item} (hitem : event.item? = some item) (notes : List Note) :
        ∃ b, (Stub.write w.config w.disk item).result = .ok b ∧
          InStep w.config I J K (Names all) (Function.update (keptAfter events) item.name (some item))
            ({ w with
              disk := (Stub.write w.config w.disk item).disk
              itemsStale := b || w.itemsStale }.tell notes) := by
      have heq := name_of_item? hitem
      obtain ⟨b, hb, hroom, hstocked, hsame⟩ := Stub.write_spec h.room h.stocked (areKept hall)
        htells (fun n hn => hn.1) (heq ▸ hname) ⟨heq ▸ hvalid, event, hevent, hitem⟩
      exact ⟨b, hb, h.shelved hroom hstocked hsame notes⟩
    rw [if_pos hvalid, if_neg (by simpa using hvalid)]
    cases event with
    | added item =>
      obtain ⟨b, hb, hin⟩ := hwritten rfl (quietNote "items" ("entity changed: " ++ item.name) ::
        (Stub.write w.config w.disk item).notes)
      rw [hb]
      cases b <;> exact hin
    | updated item =>
      obtain ⟨b, hb, hin⟩ := hwritten rfl (quietNote "items" ("entity changed: " ++ item.name) ::
        (Stub.write w.config w.disk item).notes)
      rw [hb]
      cases b <;> exact hin
    | removed name =>
      obtain ⟨b, d', hremove, hroom, hstocked⟩ := Stub.remove_spec h.room h.stocked hname
      dsimp only [RegistryEvent.name] at hremove ⊢
      rw [hremove]
      exact h.shelved (b := true) hroom hstocked (fun hno => by cases hno) _
  · rw [if_neg hvalid, if_pos (by simpa using hvalid)]
    exact h.tell _

theorem InStep.applyEvents (h : InStep c I J K (Names all) (keptAfter events) w)
    (more : List RegistryEvent) (hall : ∀ event ∈ events ++ more, event ∈ all)
    (htells : TellsApart c.itemsNamespace (Tells all)) :
    InStep c I J K (Names all) (keptAfter (events ++ more)) (more.foldl Workspace.applyEvent w) := by
  induction more generalizing events w with
  | nil =>
    rw [List.append_nil]
    exact h
  | cons event more ih =>
    have hstep := h.applyEvent (fun e he => hall e (List.mem_append_left _ he))
      (hall event (List.mem_append_right _ List.mem_cons_self)) htells
    rw [List.append_cons]
    refine ih hstep fun e he => hall e ?_
    rw [← List.append_cons] at he
    exact he

/-- Packing the units leaves the pack in step. -/
theorem InStep.packItems (h : InStep c I J K N kept w) (hkept : AreKept N R kept)
    (hvalid : ∀ n, N n → Naming.isItemName n = true) (hcomplete : Complete c I kept w.disk) :
    w.packItems.1 = true ∧ InStep c I J K N kept w.packItems.2 ∧
      w.packItems.2.itemsStale = false := by
  obtain rfl := h.config
  obtain ⟨n, d', hpack, hroom, hstocked, hpacked⟩ :=
    Pack.packFolder_spec h.stocked h.room hkept hvalid hcomplete
  unfold Workspace.packItems
  dsimp only
  rw [hpack]
  exact ⟨rfl, ⟨rfl, h.tool, h.phase, hroom, hstocked, fun _ => hpacked⟩, rfl⟩

/-- A workspace packs its items anew when the pack is behind. -/
theorem InStep.rebuildItems (h : InStep c I J K N kept w) (hkept : AreKept N R kept)
    (hvalid : ∀ n, N n → Naming.isItemName n = true)
    (hbase : Naming.isNamespace c.itemsNamespace = true) :
    w.rebuildItems.1 = true ∧ InStep c I J K N kept w.rebuildItems.2 ∧
      w.rebuildItems.2.itemsStale = false := by
  obtain rfl := h.config
  unfold Workspace.rebuildItems
  by_cases hstale : w.itemsStale = true
  · obtain ⟨o, ho, hsucceeded, hroom, hstocked, hcomplete⟩ :=
      Pass.compileItems_spec h.stocked h.room hkept hvalid hbase
    rw [← h.tool] at ho hroom hstocked hcomplete
    rw [if_neg (by simpa using hstale)]
    generalize Pass.compileItems w.tool w.config w.disk = x at *
    dsimp only
    rw [ho]
    dsimp only
    rw [if_pos hsucceeded]
    apply InStep.packItems _ hkept hvalid hcomplete
    exact ⟨rfl, h.tool, h.phase, hroom, hstocked, fun hno => by cases hstale.symm.trans hno⟩
  · rw [if_pos (by simpa using hstale)]
    exact ⟨rfl, h, by simpa using hstale⟩

end Workspace

end LiveRules
