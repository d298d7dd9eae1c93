import LiveRules.Proofs.Item.Repacked
import LiveRules.Proofs.Load.Lookup
import LiveRules.Proofs.Workspace.Journal
import LiveRules.Proofs.Workspace.Registered

/-!
When a workspace does not know that its pack is behind. Through every run, whatever operations on
files fail, a workspace that takes its pack for up to date has a pack that says what the stubs say,
as long as it has not told that the unit of a stub could not be removed. When it has, it has dealt
with the stub already and does not take note of it, and so its pack may be behind.
-/

namespace LiveRules

open Disk RegistryEvent

variable {c : Config} {I : Place} {d e : Disk} {A : Place → Prop}
variable {kept : String → Option Item} {name : String} {p : Pack}

/-! ### What the pack says -/

/-- A pack says what the stubs on a disk say: for each name of an item it has the unit with the hash
of the stub, or none if there is no stub. -/
structure Pack.Reflects (p : Pack) (c : Config) (d : Disk) : Prop where
  stub : ∀ n content, Naming.isItemName n = true → d.read (Stub.path c n) = .ok content →
    ∃ a, p.get? (Stub.identifier c.itemsNamespace n) = some a ∧
      a.sourceHash = (ContentHash.of content).hex
  gone : ∀ n err, Naming.isItemName n = true → d.read (Stub.path c n) = .error err →
    p.get? (Stub.identifier c.itemsNamespace n) = none

theorem Pack.HoldsItems.get?_eq {base : String} (h : p.HoldsItems base kept)
    (hkept : ∀ n i, kept n = some i → i.name = n ∧ Naming.isItemName n = true)
    (hname : Naming.isItemName name = true) :
    p.get? (Stub.identifier base name) = (kept name).map (Stub.unit base) := by
  have hunit {a : Artifact} (ha : (Stub.identifier base name, a) ∈ p.units) :
      (kept name).map (Stub.unit base) = some a := by
    obtain ⟨i, hi, hk, rfl⟩ := (h.mem_iff _ _).mp ha
    rw [Stub.identifier_injective hname (hkept _ _ hi).2 hk, hi]
    rfl
  cases hget : p.get? (Stub.identifier base name) with
  | some a => exact (hunit (mem_of_get? hget)).symm
  | none =>
    cases hentry : kept name with
    | none => rfl
    | some i =>
      obtain ⟨rfl, -⟩ := hkept name i hentry
      have hmem := (h.mem_iff _ _).mpr ⟨i, hentry, rfl, rfl⟩
      rw [Pack.get?, Option.map_eq_none_iff, List.find?_eq_none] at hget
      exact absurd (beq_self_eq_true _) (hget _ hmem)

/-- The pack of the items that are kept says what their stubs say. -/
theorem Pack.HoldsItems.reflects (h : p.HoldsItems c.itemsNamespace kept) (hs : Site c I d)
    (hstubs : HasStubs c I kept d) : p.Reflects c d.calm := by
  have hget {n : String} (hn : Naming.isItemName n = true) :=
    h.get?_eq (fun m i hi => ⟨(hstubs.named m i hi).2.1, hstubs.valid hi⟩) hn
  constructor
  · intro n content hn hread
    obtain ⟨P, x, hP, hfile⟩ := (read_eq_ok_iff sound_calm).mp hread
    obtain rfl : P = Stub.place c I n :=
      (eq_aim (place?_calm.symm.trans hP)).trans (hs.aim_path hn)
    obtain ⟨i, hi⟩ := hstubs.hasFile_place ⟨content, x, hfile⟩
    obtain ⟨y, hy⟩ := hstubs.stub n i hi
    obtain ⟨rfl, -⟩ := Entry.file.inj (Option.some.inj (hfile.symm.trans hy))
    exact ⟨Stub.unit c.itemsNamespace i, by rw [hget hn, hi]; rfl, rfl⟩
  · intro n err hn hread
    rw [hget hn]
    cases hentry : kept n with
    | none => rfl
    | some i => cases (hstubs.read hentry).symm.trans hread

namespace Workspace

variable {w v x : Workspace} {kept' : String → Option Item} {notes : List Note}

/-! ### What is told -/

/-- A workspace has not told that the unit of a stub could not be removed. -/
def Unstuck (c : Config) (w : Workspace) : Prop :=
  ∀ n, .told (.note n) ∈ w.journal → ¬IsStuck c n

theorem Unstuck.before (h : v.Unstuck c) (hext : w.Extends v) : w.Unstuck c :=
  fun n hn => h n (hext.subset hn)

theorem Unstuck.noneStuck (h : (w.tell notes).Unstuck c) : NoneStuck c notes := fun n hn =>
  h n (List.mem_append_right _ (List.mem_map_of_mem hn))

/-- An act tells that something could not be removed. -/
def tellsStuck : Act → Bool
  | .told (.note n) => decide ("failed to remove ".toList <:+: n.text.toList)
  | _ => false

theorem unstuck_of_journal (h : ∀ act ∈ w.journal, tellsStuck act = false) : w.Unstuck c := by
  intro n hn hstuck
  have hno : decide ("failed to remove ".toList <:+: n.text.toList) = false := h _ hn
  exact of_decide_eq_false hno hstuck.infix

/-! ### Steps -/

theorem aim_itemsPack (c : Config) (d : Disk) :
    d.aim c.itemsPack = d.aim c.folders.jar ++ [Pack.itemsPackName] :=
  aim_join Pack.isName_itemsPackName

/-- The pack is neither a source nor a unit. -/
theorem not_amongItems_itemsPack : ¬AmongItems I (d.aim c.itemsPack) := by
  rintro ⟨names, hnames, heq⟩
  exact hnames.ne_concat (by decide) (by decide) (heq.symm.trans (aim_itemsPack c d))

/-- The files that a workspace keeps its items in: the sources and units below the place of the
items, and the pack. -/
def IsItemsFile (c : Config) (d : Disk) (Q : Place) : Prop :=
  AmongItems (d.aim c.folders.items) Q ∨ Q = d.aim c.itemsPack

/-- A workspace tracks its items: the stubs are in order, and the pack is that of the items unless
the workspace knows that it is behind. -/
structure Tracks (c : Config) (I : Place) (kept : String → Option Item) (w : Workspace) : Prop where
  config : w.config = c
  tool : w.tool = .builtin
  site : Site c I w.disk
  stubs : HasStubs c I kept w.disk
  packed : w.itemsStale = false → HasPack c kept w.disk

/-- What tracking items is about. -/
def core (w : Workspace) : Config × Tool × Disk × Bool := (w.config, w.tool, w.disk, w.itemsStale)

theorem Tracks.of_core (h : Tracks c I kept w) (hcore : v.core = w.core) : Tracks c I kept v := by
  simp only [core, Prod.mk.injEq] at hcore
  obtain ⟨hconfig, htool, hdisk, hstale⟩ := hcore
  exact ⟨hconfig.trans h.config, htool.trans h.tool, hdisk ▸ h.site, hdisk ▸ h.stubs,
    fun hno => hdisk ▸ h.packed (hstale.symm.trans hno)⟩

/-- Whatever leaves the items and their pack alone. -/
theorem Tracks.left (h : Tracks c I kept w) (hl : Leaves (IsItemsFile c w.disk) w.disk d) :
    Tracks c I kept { w with disk := d } where
  config := h.config
  tool := h.tool
  site := h.site.leaves hl
  stubs := h.stubs.leaves (hl.mono fun _ hQ => .inl (h.site.aim.symm ▸ hQ))
  packed := fun hno => (h.packed hno).leaves hl (.inr rfl)

/-- A step that is noted if it changes anything. -/
theorem Tracks.turned {noted : Prop} (h : Tracks c I kept w)
    (hturns : Turns c I noted kept kept' w.disk d) {b : Bool}
    (hb : b = true ↔ noted ∨ w.itemsStale = true) :
    Tracks c I kept' { w with disk := d, itemsStale := b } where
  config := h.config
  tool := h.tool
  site := h.site.leaves hturns.leaves
  stubs := hturns.stubs
  packed := fun hno => by
    rw [← Bool.not_eq_true, hb, not_or, Bool.not_eq_true] at hno
    obtain rfl := hturns.same.resolve_left hno.1
    exact (h.packed hno.2).leaves hturns.leaves not_amongItems_itemsPack

theorem Tracks.generateStubs (h : Tracks c I kept w) (hu : w.generateStubs.Unstuck c) :
    ∃ kept', Tracks c I kept' w.generateStubs := by
  obtain rfl := h.config
  unfold Workspace.generateStubs at hu ⊢
  obtain ⟨kept', hturns⟩ := Shelf.fill_turns h.site h.stubs hu.noneStuck
  generalize Shelf.fill w.config w.disk w.registry.items = x at *
  refine ⟨kept', (h.turned hturns
    (b := w.itemsStale || decide (0 < x.written + x.removed)) ?_).of_core rfl⟩
  rw [Bool.or_eq_true, decide_eq_true_iff, or_comm]
  rfl

/-- An event about an item takes note of it if the stub of the item was written, and tells if that
failed. -/
theorem applyEvent_written {event : RegistryEvent} {item : Item} (hitem : event.item? = some item)
    (hvalid : Naming.isItemName event.name = true) : ∃ b,
      (w.applyEvent event).core =
        (w.config, w.tool, (Stub.write w.config w.disk item).disk, b) ∧
      (b = true ↔ (Stub.write w.config w.disk item).result = .ok true ∨ w.itemsStale = true) ∧
      ∀ err, (Stub.write w.config w.disk item).result = .error err → ∃ front,
        .told (.note (note "error" (front ++ err.text))) ∈ (w.applyEvent event).journal := by
  have hnot : ¬(!Naming.isItemName event.name) = true := by simp [hvalid]
  unfold Workspace.applyEvent
  dsimp only
  rw [if_neg hnot]
  cases event with
  | removed name => cases hitem
  | added item | updated item =>
    cases hitem
    dsimp only
    generalize Stub.write w.config w.disk item = done
    rcases hresult : done.result with err | _ | _
    · refine ⟨w.itemsStale, rfl, by simp, ?_⟩
      rintro _ ⟨⟩
      exact ⟨_, List.mem_append_right _ (List.mem_singleton_self _)⟩
    · exact ⟨w.itemsStale, rfl, by simp, by simp⟩
    · exact ⟨true, rfl, by simp, by simp⟩

/-- An event about an item that is gone takes note of it unless its stub cannot be removed, which is
told. -/
theorem applyEvent_gone {r : Except ShelfError Bool} (hvalid : Naming.isItemName name = true)
    (hremove : Stub.remove w.config w.disk name = (r, d)) : ∃ b,
      (w.applyEvent (.removed name)).core = (w.config, w.tool, d, b) ∧
      (b = true ↔ (∃ b, r = .ok b) ∨ w.itemsStale = true) ∧
      ∀ err, r = .error err → ∃ front,
        .told (.note (note "error" (front ++ err.text))) ∈ (w.applyEvent (.removed name)).journal := by
  have hnot : ¬(!Naming.isItemName (RegistryEvent.removed name).name) = true := by
    simp [RegistryEvent.name, hvalid]
  unfold Workspace.applyEvent
  dsimp only
  rw [if_neg hnot, hremove]
  rcases r with err | b
  · refine ⟨w.itemsStale, rfl, by simp, ?_⟩
    rintro _ ⟨⟩
    exact ⟨_, List.mem_append_right _ (List.mem_singleton_self _)⟩
  · exact ⟨true, rfl, by simp, by simp⟩

theorem Tracks.applyEvent (h : Tracks c I kept w) (event : RegistryEvent)
    (hu : (w.applyEvent event).Unstuck c) : ∃ kept', Tracks c I kept' (w.applyEvent event) := by
  obtain rfl := h.config
  by_cases hvalid : Naming.isItemName event.name = true
  · cases hitem : event.item? with
    | some item =>
      have hname := name_of_item? hitem
      obtain ⟨b, hcore, hb, herror⟩ := applyEvent_written hitem hvalid
      obtain ⟨kept', hturns⟩ := Stub.write_turns h.site h.stubs (hname ▸ hvalid)
        (Stub.not_failsAtUnit (hname ▸ hvalid) fun err herr => (herror err herr).imp fun _ => hu _)
      exact ⟨kept', (h.turned hturns hb).of_core hcore⟩
    | none =>
      obtain ⟨name, rfl⟩ : ∃ name, event = .removed name := by
        cases event with
        | removed name => exact ⟨name, rfl⟩
        | added item | updated item => cases hitem
      rcases hremove : Stub.remove w.config w.disk name with ⟨r, d⟩
      obtain ⟨b, hcore, hb, herror⟩ := applyEvent_gone hvalid hremove
      obtain ⟨kept', hturns⟩ := Stub.remove_turns h.site h.stubs hvalid hremove
        (Stub.not_failsAtUnit hvalid fun err herr => (herror err herr).imp fun _ => hu _)
      exact ⟨kept', (h.turned hturns hb).of_core hcore⟩
  · refine ⟨kept, h.of_core ?_⟩
    unfold Workspace.applyEvent
    dsimp only
    rw [if_pos (by simpa using hvalid)]
    rfl

theorem Tracks.packItems (h : Tracks c I kept w) (hstale : w.itemsStale = true)
    (hfilled : AreFilled c I kept w.disk) : Tracks c I kept w.packItems.2 := by
  obtain rfl := h.config
  unfold Workspace.packItems
  dsimp only
  rcases hpack : Pack.packFolder w.disk w.config.folders.items w.config.itemsPack with ⟨r, d⟩
  obtain ⟨hl, hpacked⟩ := Pack.packFolder_leaves h.site h.stubs hfilled hpack
  have hbehind : Tracks w.config I kept { w with disk := d } :=
    ⟨rfl, h.tool, h.site.leaves hl, h.stubs.leaves hl, fun hno => by
      cases hstale.symm.trans hno⟩
  rcases r with err | n
  · exact hbehind.of_core rfl
  · exact (Tracks.of_core (w := { w with disk := d, itemsStale := false })
      ⟨rfl, h.tool, hbehind.site, hbehind.stubs, fun _ => hpacked ⟨n, rfl⟩⟩ rfl)

theorem Tracks.rebuildItems (h : Tracks c I kept w) : Tracks c I kept w.rebuildItems.2 := by
  obtain rfl := h.config
  unfold Workspace.rebuildItems
  by_cases hstale : w.itemsStale = true
  · obtain ⟨hrefills, hfilled⟩ := Pass.compileItems_refills h.site h.stubs
    rw [← h.tool] at hrefills hfilled
    rw [if_neg (by simpa using hstale)]
    generalize Pass.compileItems w.tool w.config w.disk = x at *
    have hcompiled : Tracks w.config I kept ({ w with disk := x.disk }.tell x.notes) :=
      Tracks.of_core (w := { w with disk := x.disk })
        ⟨rfl, h.tool, h.site.leaves hrefills.leaves, hrefills.stubs, fun hno => by
          cases hstale.symm.trans hno⟩ rfl
    dsimp only
    cases houtcome : x.outcome with
    | error err => exact hcompiled.of_core rfl
    | ok o =>
      dsimp only
      split
      · rename_i hsucceeded
        exact hcompiled.packItems hstale (hfilled o houtcome hsucceeded)
      · exact hcompiled
  · rw [if_pos (by simpa using hstale)]
    exact h

theorem Tracks.applyEvents (h : Tracks c I kept w) (events : List RegistryEvent)
    (hu : (events.foldl Workspace.applyEvent w).Unstuck c) :
    ∃ kept', Tracks c I kept' (events.foldl Workspace.applyEvent w) := by
  induction events generalizing w kept with
  | nil => exact ⟨kept, h⟩
  | cons event events ih =>
    obtain ⟨kept', hstep⟩ := h.applyEvent event (hu.before (extends_applyEvents events))
    exact ih hstep hu

theorem Tracks.registryChanged (h : Tracks c I kept w) (events : List RegistryEvent)
    (hu : (w.registryChanged events).Unstuck c) :
    ∃ kept', Tracks c I kept' (w.registryChanged events) := by
  unfold Workspace.registryChanged at hu ⊢
  split at hu
  · rw [if_pos ‹_›]
    exact ⟨kept, h⟩
  · rw [if_neg ‹_›]
    obtain ⟨kept', happlied⟩ := h.applyEvents events (hu.before extends_rebuildItems)
    exact ⟨kept', happlied.rebuildItems⟩

/-- A pass over rules that are stored apart from the items leaves these alone. -/
theorem Tracks.compileRules (h : Tracks c I kept w) :
    Tracks c I kept w.compileRules := by
  obtain rfl := h.config
  obtain ⟨hconfig, htool, -, hstale⟩ := compileRules_fields (w := w)
  have hl := Pass.leaves_compileRules (c := w.config) h.site.regular
  rw [← compileRules_disk h.tool] at hl
  refine (h.left (hl.mono fun Q hQ => ?_)).of_core ?_
  · rcases hQ with hitem | rfl
    · exact h.site.not_amongUnits (h.site.aim ▸ hitem)
    · rintro ⟨names, ⟨stem, hlast⟩, heq⟩
      have hne : names ≠ [] := by
        rintro rfl
        cases hlast
      refine not_isUnitName (F := w.disk.aim w.config.folders.jar) (by simp)
        (show endsWith [Pack.itemsPackName] Naming.packExtension = true by decide) (by decide)
        ⟨stem, ?_⟩
      rw [← aim_itemsPack, heq, getLast?_append_of_ne hne, hlast]
  · rw [core, hconfig, htool, hstale]
    rfl

theorem loadRules_core : w.loadRules.core = w.core := by
  unfold loadRules
  dsimp only [record, tell, core]

theorem Tracks.reload (h : Tracks c I kept w) :
    Tracks c I kept w.reload := by
  unfold Workspace.reload
  split
  · exact h
  · have hcompiled := (h.of_core (v := { w with phase := .reloading }.tell
      [note "reload" ("reloading rules from " ++ w.config.folders.rules.text)]) rfl).compileRules
    dsimp only
    generalize Workspace.compileRules ({ w with phase := .reloading }.tell
      [note "reload" ("reloading rules from " ++ w.config.folders.rules.text)]) = v at *
    have hempty : Tracks c I kept
        ({ v with engine := v.engine.reset }.record [.unsubscribed]) :=
      hcompiled.of_core (by dsimp only [core, record])
    have hloaded := hempty.of_core loadRules_core
    generalize Workspace.loadRules ({ v with engine := v.engine.reset }.record [.unsubscribed]) = x
      at *
    exact hloaded.of_core (by dsimp only [core, record])

theorem stopWatcher_core : w.stopWatcher.core = w.core := by
  unfold stopWatcher
  split <;> rfl

theorem stopLoop_core : w.stopLoop.core = w.core := by
  unfold stopLoop
  split <;> rfl

theorem dispose_core : w.dispose.core = w.core := by
  unfold dispose
  split
  · rfl
  · dsimp only
    have hstopped := stopLoop_core.trans
      (stopWatcher_core (w := { w with engine := w.engine.reset, phase := .disposed }))
    generalize Workspace.stopLoop _ = x at *
    exact Eq.trans (by dsimp only [core, record, tell]) hstopped

/-! ### Starting -/

theorem isName_runtimePackName : Path.IsName Pack.runtimePackName :=
  ⟨by decide, by decide, by decide, by decide⟩

/-- The file that the pack of the built-in units is first written to. -/
def runtimeTemporaryName : String := "runtime.pack.tmp"

theorem isName_runtimeTemporaryName : Path.IsName runtimeTemporaryName :=
  ⟨by decide, by decide, by decide, by decide⟩

theorem temporary_runtimePack (c : Config) :
    Pack.temporary c.runtimePack = c.folders.jar.join ⟨runtimeTemporaryName⟩ :=
  Path.withExtension_join isName_runtimePackName
    (show Path.IsName ((Path.cutName Pack.runtimePackName).1 ++ "." ++ "pack.tmp") from
      isName_runtimeTemporaryName)

theorem leaves_makeAll {paths : List Path} {r : Except SetupError Unit} (hd : d.calm.Regular)
    (h : makeAll d paths = (r, e)) : Leaves A d e := by
  induction paths generalizing d with
  | nil =>
    cases h
    exact .refl hd
  | cons folder rest ih =>
    rw [makeAll] at h
    rcases hmake : d.makeFolders folder with ⟨made, d₁⟩
    have hmade : Leaves A d d₁ := leaves_makeFolders hd hmake
    rw [hmake] at h
    rcases made with err | ⟨⟩
    · cases h
      exact hmade
    · exact hmade.trans (ih hmade.regular h)

/-- Whatever fails while folders are set up, all files stay but the pack of the built-in units and
its temporary file. -/
theorem leaves_setUp {r : Except SetupError Unit} (hd : d.calm.Regular) (h : setUp c d = (r, e)) :
    Leaves (fun Q => Q ≠ d.aim c.folders.jar ++ [Pack.runtimePackName] ∧
      Q ≠ d.aim c.folders.jar ++ [runtimeTemporaryName]) d e := by
  unfold setUp at h
  rcases hmake : makeAll d (setupFolders c) with ⟨made, d₁⟩
  have hmade : Leaves (fun Q => Q ≠ d.aim c.folders.jar ++ [Pack.runtimePackName] ∧
      Q ≠ d.aim c.folders.jar ++ [runtimeTemporaryName]) d d₁ := leaves_makeAll hd hmake
  rw [hmake] at h
  rcases made with err | ⟨⟩
  · cases h
    exact hmade
  · dsimp only at h
    rcases hsave : Pack.runtime.save d₁ c.runtimePack with ⟨saved, d₂⟩
    obtain ⟨hsaved, -⟩ := Pack.leaves_save hmade.regular isName_runtimePackName
      isName_runtimeTemporaryName (temporary_runtimePack c) hsave
    rw [hmade.aim_eq] at hsaved
    obtain rfl : e = d₂ := by
      rw [hsave] at h
      cases saved <;> exact (congrArg Prod.snd h).symm
    exact hmade.trans hsaved

/-- Setting up leaves the items alone. -/
theorem Tracks.setUp (h : Tracks c I kept w) :
    Tracks c I kept { w with disk := (setUp c w.disk).2 } := by
  rcases hsetUp : Workspace.setUp c w.disk with ⟨r, d⟩
  refine h.left ((leaves_setUp h.site.regular hsetUp).mono fun Q hQ => ?_)
  rcases hQ with ⟨names, hnames, rfl⟩ | rfl
  · exact ⟨hnames.ne_concat (by decide) (by decide), hnames.ne_concat (by decide) (by decide)⟩
  · have hne {n : String} (hn : Pack.itemsPackName ≠ n) :
        w.disk.aim c.itemsPack ≠ w.disk.aim c.folders.jar ++ [n] := by
      rw [aim_itemsPack]
      exact fun heq => hn (List.singleton_inj.mp (List.append_cancel_left heq))
    exact ⟨hne (by decide), hne (by decide)⟩

theorem Tracks.prepareItems (h : Tracks c I kept w) (hu : w.prepareItems.Unstuck c) :
    ∃ kept', Tracks c I kept' w.prepareItems := by
  obtain ⟨kept', hstubs⟩ := h.generateStubs (hu.before generateStubs_extends_prepareItems)
  unfold Workspace.prepareItems
  dsimp only
  generalize w.generateStubs = v at *
  have hrebuilt := (hstubs.of_core (v := { v with phase := .stubsGenerated }) rfl).rebuildItems
  generalize Workspace.rebuildItems { v with phase := .stubsGenerated } = x at *
  obtain ⟨isFresh, x⟩ := x
  refine ⟨kept', hrebuilt.of_core ?_⟩
  cases isFresh <;> rfl

theorem startWatcher_core : w.startWatcher.core = w.core := by
  unfold startWatcher
  split <;> rfl

/-- A workspace whose folders are set up goes through its phases. -/
theorem Tracks.start (h : Tracks c I kept w) (hphase : w.phase = .uninitialized)
    (hu : w.start.Unstuck c) : ∃ kept', Tracks c I kept' w.start := by
  have hsetUp := h.setUp
  obtain rfl : w.config = c := h.config
  unfold Workspace.start at hu ⊢
  rw [if_neg (by simpa using hphase)] at hu ⊢
  generalize Workspace.setUp w.config w.disk = x at *
  obtain ⟨err | ⟨⟩, d⟩ := x
  · exact ⟨kept, hsetUp.of_core rfl⟩
  · dsimp only at hu ⊢
    have hready := hsetUp.of_core (v := { w with disk := d, phase := .foldersReady }.tell
      [quietNote "init" ("folders ready below " ++ w.config.folders.workingDir.text)]) rfl
    generalize Workspace.tell _ _ = v at hu hready ⊢
    have hitems := hready.prepareItems
    generalize v.prepareItems = v at hu hitems ⊢
    have hloaded := (extends_prepareRules (w := v)).trans extends_startWatcher
    obtain ⟨hconfig, htool, -, hdisk, hstale⟩ := prepareRules_fields (w := v)
    have hcore : v.prepareRules.startWatcher.core = v.compileRules.core :=
      startWatcher_core.trans (by rw [core, hconfig, htool, hdisk, hstale, core])
    generalize v.prepareRules.startWatcher = x at hu hloaded hcore ⊢
    obtain ⟨kept', htracks⟩ := hitems (Unstuck.before (v := x) hu hloaded)
    exact ⟨kept', (htracks.compileRules.of_core hcore).of_core rfl⟩

/-! ### Runs -/

/-- Every operation keeps track of the items, unless it tells that a unit could not be removed. -/
theorem Tracks.perform (h : Tracks c I kept w) (x : Operation) (hu : (w.perform x).Unstuck c) :
    ∃ kept', Tracks c I kept' (w.perform x) := by
  cases x with
  | start =>
    by_cases hphase : w.phase = .uninitialized
    · exact h.start hphase hu
    · refine ⟨kept, h.of_core ?_⟩
      show w.start.core = w.core
      unfold Workspace.start
      rw [if_pos hphase]
      rfl
  | registryChanged events => exact h.registryChanged events hu
  | reload => exact ⟨kept, h.reload⟩
  | rulesChanged changes => exact ⟨kept, (h.of_core (v := w.tellChanges changes) rfl).reload⟩
  | dispose => exact ⟨kept, h.of_core dispose_core⟩

/-- What others may do to a disk in the meantime: they leave the files alone that a workspace keeps
its items in, and they remove no folders. -/
def LeavesItems (c : Config) (d e : Disk) : Prop := Leaves (IsItemsFile c d) d e

/-- So does every run in which others leave the items alone. -/
theorem Tracks.becomes (h : Tracks c I kept w) (hv : w.Becomes (LeavesItems c) v)
    (hu : v.Unstuck c) : ∃ kept', Tracks c I kept' v := by
  induction hv with
  | refl => exact ⟨kept, h⟩
  | perform _ x ih =>
    obtain ⟨kept', hstep⟩ := ih (hu.before (extends_perform x))
    exact hstep.perform x hu
  | meanwhile _ _ hdisk ih =>
    obtain ⟨kept', hstep⟩ := ih hu
    exact ⟨kept', (hstep.left hdisk).of_core rfl⟩

/-- A run from a new workspace, on a disk with no sources and units among the items. Whatever
operations on files fail, a workspace that takes its pack for up to date, and has not told that the
unit of a stub could not be removed, has a pack that says what the stubs say. -/
theorem pack_reflects_stubs {watches : Bool} {registry : Registry} (hs : Site c I d)
    (hempty : ∀ Q, AmongItems I Q → ¬d.HasFile Q)
    (hv : (new c .builtin watches registry d).Becomes (LeavesItems c) v) (hfresh : v.itemsStale = false)
    (hu : v.Unstuck c) :
    ∃ p, Pack.read v.disk.calm c.itemsPack = .ok p ∧ p.Reflects c v.disk.calm := by
  have hnew : Tracks c I (fun _ => none) (new c .builtin watches registry d) :=
    ⟨rfl, rfl, hs, .of_none hempty, fun hno => by cases hno⟩
  obtain ⟨kept, htracks⟩ := hnew.becomes hv hu
  obtain ⟨p, hread, hp⟩ := (htracks.packed hfresh).read
  exact ⟨p, hread, hp.reflects htracks.site htracks.stubs⟩

/-- A disk with a folder for stubs, on which the stub of the lamp cannot be written. -/
def unwritableDisk : Disk where
  entries := [(["items"], .folder), (["items", "q"], .folder)]
  troubles := fun _ op P =>
    if op = .write ∧ P = ["items", "q", "_L.rule"] then some ⟨.accessDenied, none⟩ else none

def unwritable : Workspace := new (withRule ⟨"out"⟩).config .builtin false {} unwritableDisk

theorem site_unwritable : Site (withRule ⟨"out"⟩).config ["items"] unwritableDisk := by
  have htroubles {n op P} (hop : op ≠ .write) : unwritableDisk.troubles n op P = none :=
    if_neg fun hno => hop hno.1
  exact {
    regular := (IsTree.of_entries (by decide) (by decide)).regular_calm
    items := by decide
    aim := by decide
    base := by decide
    not_above := by decide
    not_below := by decide
    shows := ⟨fun _ _ _ => htroubles (by decide), fun _ _ _ => htroubles (by decide)⟩
    honest := fun n P t _ ht => by cases (htroubles (by decide)).symm.trans ht
    whole := fun n name t _ ht => by
      obtain ⟨-, heq⟩ := Option.ite_none_right_eq_some.mp ht
      cases heq
      rfl }

/-- When the lamp comes there, its stub is not written, and the pack is up to date without it. -/
theorem pack_reflects_stubs_unwritable :
    (unwritable.perform (.registryChanged [.added lamp])).itemsStale = false ∧
      ∃ p, Pack.read (unwritable.perform (.registryChanged [.added lamp])).disk.calm
          unwritable.config.itemsPack = .ok p ∧
        p.Reflects unwritable.config
          (unwritable.perform (.registryChanged [.added lamp])).disk.calm := by
  have hend : (unwritable.perform (.registryChanged [.added lamp])).itemsStale = false ∧
      ∀ act ∈ (unwritable.perform (.registryChanged [.added lamp])).journal,
        tellsStuck act = false := by
    decide +kernel
  have hempty : ∀ Q, AmongItems ["items"] Q → ¬unwritableDisk.HasFile Q := by
    rintro Q - ⟨content, x, hx⟩
    have hmem := mem_of_lookup ((lookup_entries (by rintro rfl; cases hx)).symm.trans hx)
    simp [unwritableDisk] at hmem
  exact ⟨hend.1, pack_reflects_stubs site_unwritable hempty
    (Becomes.refl.perform (.registryChanged [.added lamp])) hend.1 (unstuck_of_journal hend.2)⟩

/-- A disk with a folder where the unit of the lamp should be. -/
def blockedDisk : Disk where
  entries := [(["items"], .folder), (["items", "q"], .folder),
    (["items", "q", "_L.unit"], .folder)]

def blocked : Workspace := new (withRule ⟨"out"⟩).config .builtin false {} blockedDisk

/-- An event that comes to an error at the stub of its item leaves a pack up to date that was so
before, whatever became of the stub. -/
theorem registryChanged_core_of_error {event : RegistryEvent} {item : Item} {err : ShelfError}
    (hphase : w.phase ≠ .disposed) (hfresh : w.itemsStale = false)
    (hitem : event.item? = some item) (hvalid : Naming.isItemName event.name = true)
    (herror : (Stub.write w.config w.disk item).result = .error err) :
    (w.registryChanged [event]).core =
      (w.config, w.tool, (Stub.write w.config w.disk item).disk, false) := by
  obtain ⟨b, hcore, hb, -⟩ := applyEvent_written hitem hvalid
  obtain rfl : b = false := by
    rw [← Bool.not_eq_true, hb, herror, hfresh]
    simp
  have hstill : (w.applyEvent event).itemsStale = false := congrArg (·.2.2.2) hcore
  rw [registryChanged, if_neg hphase, List.foldl_cons, List.foldl_nil, rebuildItems,
    if_pos (by rw [hstill]; rfl)]
  exact hcore

/-- When the lamp comes there after the start, its stub is written, but the unit cannot be removed.
The workspace takes its pack for up to date, which has no unit for the stub. -/
theorem pack_misses_stub_blocked :
    blockedDisk.Sound ∧ (∀ Q, AmongItems ["items"] Q → ¬blockedDisk.HasFile Q) ∧
      ∃ v p, blocked.Becomes Eq v ∧ v.itemsStale = false ∧
        v.disk.read (Stub.path v.config "L") = .ok (Text.encode (Stub.text "q" lamp)) ∧
        Pack.read v.disk v.config.itemsPack = .ok p ∧
        p.get? (Stub.identifier "q" "L") = none := by
  have hempty : ∀ Q, AmongItems ["items"] Q → ¬blockedDisk.HasFile Q := by
    rintro Q - ⟨content, x, hx⟩
    have hmem := mem_of_lookup ((lookup_entries (by rintro rfl; cases hx)).symm.trans hx)
    simp [blockedDisk] at hmem
  -- of a start, only the part that is about the items is evaluated
  obtain ⟨hconfig, -, hphase, hdisk, hstale⟩ := start_fields (w := blocked) rfl
    (isOk_iff.mp (by decide +kernel))
  have hready : blocked.itemsReady.config = blocked.config ∧
      blocked.itemsReady.itemsStale = false := by
    decide +kernel
  have hwritten : (Stub.write blocked.config blocked.itemsReady.compileRules.disk lamp).result =
        .error (.remove ⟨"items/q/_L.unit"⟩ .isFolder) ∧
      (Stub.write blocked.config blocked.itemsReady.compileRules.disk lamp).disk.read
        (Stub.path blocked.config "L") = .ok (Text.encode (Stub.text "q" lamp)) ∧
      (Stub.write blocked.config blocked.itemsReady.compileRules.disk lamp).disk.read
        blocked.config.itemsPack = .ok (Text.encode (Pack.ofUnits []).text) := by
    decide +kernel
  rw [hready.1] at hconfig
  rw [← hconfig, ← hdisk] at hwritten
  have hcore : (blocked.start.registryChanged [.added lamp]).core = _ :=
    registryChanged_core_of_error hphase (hstale.trans hready.2) rfl (by decide) hwritten.1
  simp only [core, Prod.mk.injEq] at hcore
  obtain ⟨hconfig', -, hdisk', hstale'⟩ := hcore
  refine ⟨fun _ _ _ => rfl, hempty, blocked.start.registryChanged [.added lamp], Pack.ofUnits [],
    (Becomes.refl.perform .start).perform (.registryChanged [.added lamp]), hstale', ?_⟩
  rw [hconfig', hdisk']
  rw [hconfig] at hwritten ⊢
  exact ⟨hwritten.2.1, Pack.read_eq_ok (Pack.increasing_ofUnits []) (fun _ hx => by cases hx)
    hwritten.2.2, rfl⟩

end Workspace

end LiveRules
