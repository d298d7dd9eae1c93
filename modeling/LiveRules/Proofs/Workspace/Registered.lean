import LiveRules.Proofs.Workspace.Loaded
import LiveRules.Proofs.Workspace.Starting

/-!
Following a registry. Once a workspace is started, its pack holds the items that the events have
left, however the events come in; only units of rules that are stored among the items get into it.
-/

namespace LiveRules.Workspace

open Disk RegistryEvent

variable {c : Config} {I J K : Place} {N : String → Prop} {kept : String → Option Item}
variable {w : Workspace} {all events : List RegistryEvent}

/-- A workspace to be started on a disk where nothing is in the way of the files of some items, and
where no source and no unit lies below the place of the items yet. -/
structure CanFollow (w : Workspace) (I : Place) (N : String → Prop) : Prop where
  tool : w.tool = .builtin
  phase : w.phase = .uninitialized
  stale : w.itemsStale = true
  regular : w.disk.Regular
  base : Naming.isNamespace w.config.itemsNamespace = true
  items : w.config.folders.items.text ≠ ""
  jar : w.config.folders.jar.text ≠ ""
  classes : w.config.folders.ruleClasses.text ≠ ""
  folders : (setUp w.config w.disk).1 = .ok ()
  place : (setUp w.config w.disk).2.place? w.config.folders.items = .ok I
  files : ∀ p, IsItemFile w.config N p → ∃ P, (setUp w.config w.disk).2.Accepts p P
  empty : ∀ names, IsSourceOrUnit names → ¬w.disk.HasFile (I ++ names)

/-! ### The start -/

/-- What a start has made of a workspace when its rules come up. -/
def itemsReady (w : Workspace) : Workspace :=
  ({ w with disk := (setUp w.config w.disk).2, phase := .foldersReady }.tell
    [quietNote "init" ("folders ready below " ++ w.config.folders.workingDir.text)]).prepareItems

theorem start_eq (hphase : w.phase = .uninitialized)
    (h : (setUp w.config w.disk).1 = .ok ()) :
    w.start = { w.itemsReady.prepareRules.startWatcher with hasLoop := true } := by
  unfold start itemsReady
  rw [if_neg (by simpa using hphase)]
  generalize setUp w.config w.disk = x at *
  obtain ⟨result, disk⟩ := x
  obtain rfl : result = .ok () := h
  rfl

/-- Folders are made and items are in line when the rules come up. -/
theorem CanFollow.itemsReady (h : w.CanFollow I (Names all))
    (hall : ∀ event ∈ w.registry.items.map .added, event ∈ all)
    (htells : TellsApart w.config.itemsNamespace (Tells all)) : ∃ J K,
      (setUp w.config w.disk).2.place? w.config.folders.ruleClasses = .ok K ∧
      InStep w.config I J K (Names all) (keptAfter (w.registry.items.map .added)) w.itemsReady ∧
      w.itemsReady.itemsStale = false := by
  have hsetUp : setUp w.config w.disk = (.ok (), (setUp w.config w.disk).2) :=
    Prod.ext h.folders rfl
  obtain ⟨I', J, K, hroom⟩ := room_of_setUp h.regular hsetUp h.base h.items h.jar h.classes
    (fun n hn => hn.1) h.files
  obtain rfl : I = I' := Except.ok.inj (h.place.symm.trans hroom.items)
  have hstocked := stocked_of_setUp h.regular hsetUp hroom h.empty
  have hin : InStep w.config I J K (Names all) (keptAfter [])
      ({ w with disk := (setUp w.config w.disk).2, phase := .foldersReady }.tell
        [quietNote "init" ("folders ready below " ++ w.config.folders.workingDir.text)]) :=
    ⟨rfl, h.tool, by simp [tell, record], hroom, hstocked,
      fun hno => absurd (h.stale.symm.trans hno) (by simp)⟩
  exact ⟨J, K, hroom.classes, hin.prepareItems h.stale hall htells h.base⟩

theorem compileRules_disk (htool : w.tool = .builtin) :
    w.compileRules.disk = (Pass.compileRules .builtin w.config w.disk).disk := by
  rw [← htool]
  unfold compileRules
  dsimp only
  split <;> rfl

theorem compileRules_fields : w.compileRules.config = w.config ∧ w.compileRules.tool = w.tool ∧
    w.compileRules.phase = w.phase ∧ w.compileRules.itemsStale = w.itemsStale := by
  unfold compileRules
  dsimp only
  split <;> exact ⟨rfl, rfl, rfl, rfl⟩

/-- A pass over rules leaves room for the items. -/
theorem InStep.room_compileRules (h : InStep c I J K N kept w) :
    Room c I J K N w.compileRules.disk := by
  rw [compileRules_disk h.tool, h.config]
  exact h.room.confined
    (Pass.confined_compileRules h.room.regular h.room.classes h.room.classFolder)

/-- A pass over rules that stores no unit among the items keeps a workspace in step. -/
theorem InStep.compileRules (h : InStep c I J K N kept w)
    (hadds : AddsNoUnit I w.disk w.compileRules.disk) : InStep c I J K N kept w.compileRules := by
  obtain ⟨hconfig, htool, hphase, hstale⟩ := compileRules_fields (w := w)
  have hconfined := Pass.confined_compileRules h.room.regular h.room.classes h.room.classFolder
  rw [← h.config, ← compileRules_disk h.tool] at hconfined
  have hpack : w.compileRules.disk.entry? (J ++ [Pack.itemsPackName]) =
      w.disk.entry? (J ++ [Pack.itemsPackName]) :=
    hconfined.other (show endsWith [Pack.itemsPackName] Naming.packExtension = true by decide)
      (by decide)
  refine ⟨hconfig.trans h.config, htool.trans h.tool, hphase ▸ h.phase, h.room_compileRules,
    h.stocked.confined hconfined hadds, fun hfresh => ?_⟩
  obtain ⟨p, x, hp, hx⟩ := h.packed (hstale.symm.trans hfresh)
  exact ⟨p, x, hp, hpack.trans hx⟩

theorem prepareRules_fields : w.prepareRules.config = w.compileRules.config ∧
    w.prepareRules.tool = w.compileRules.tool ∧ w.prepareRules.phase ≠ .disposed ∧
      w.prepareRules.disk = w.compileRules.disk ∧
      w.prepareRules.itemsStale = w.compileRules.itemsStale := by
  unfold prepareRules
  generalize w.compileRules = v
  dsimp only [loadRules, record, tell]
  exact ⟨rfl, rfl, by simp, rfl, rfl⟩

theorem startWatcher_fields (hphase : w.phase ≠ .disposed) :
    w.startWatcher.config = w.config ∧ w.startWatcher.tool = w.tool ∧
      w.startWatcher.phase ≠ .disposed ∧ w.startWatcher.disk = w.disk ∧
      w.startWatcher.itemsStale = w.itemsStale := by
  unfold startWatcher
  split
  · refine ⟨rfl, rfl, ?_, rfl, rfl⟩
    dsimp only [tell, record]
    split
    · simp
    · exact hphase
  · exact ⟨rfl, rfl, hphase, rfl, rfl⟩

/-- The rules are the last thing that a start changes on the disk. -/
theorem start_fields (hphase : w.phase = .uninitialized)
    (h : (setUp w.config w.disk).1 = .ok ()) :
    w.start.config = w.itemsReady.config ∧ w.start.tool = w.itemsReady.tool ∧
      w.start.phase ≠ .disposed ∧ w.start.disk = w.itemsReady.compileRules.disk ∧
      w.start.itemsStale = w.itemsReady.itemsStale := by
  obtain ⟨hconfig, htool, -, hstale⟩ := compileRules_fields (w := w.itemsReady)
  obtain ⟨hconfig', htool', hphase', hdisk', hstale'⟩ := prepareRules_fields (w := w.itemsReady)
  obtain ⟨hconfig'', htool'', hphase'', hdisk'', hstale''⟩ := startWatcher_fields hphase'
  rw [start_eq hphase h]
  generalize w.itemsReady.prepareRules.startWatcher = v at *
  exact ⟨hconfig''.trans (hconfig'.trans hconfig), htool''.trans (htool'.trans htool), hphase'',
    hdisk''.trans hdisk', hstale''.trans (hstale'.trans hstale)⟩

/-- A workspace that was started is in step with its registry. -/
theorem CanFollow.start (h : w.CanFollow I (Names all))
    (hall : ∀ event ∈ w.registry.items.map .added, event ∈ all)
    (htells : TellsApart w.config.itemsNamespace (Tells all))
    (hadds : AddsNoUnit I w.itemsReady.disk w.itemsReady.compileRules.disk) : ∃ J K,
      InStep w.config I J K (Names all) (keptAfter (w.registry.items.map .added)) w.start ∧
      w.start.itemsStale = false := by
  obtain ⟨J, K, -, hready, hfresh⟩ := h.itemsReady hall htells
  have hcompiled := hready.compileRules hadds
  obtain ⟨hconfig, htool, hphase, hdisk, hstale⟩ := start_fields h.phase h.folders
  obtain ⟨hconfig', htool', -, hstale'⟩ := compileRules_fields (w := w.itemsReady)
  exact ⟨J, K, hcompiled.of_eq (hconfig.trans hconfig'.symm) (htool.trans htool'.symm) hphase hdisk
    (hstale.trans hstale'.symm), hstale.trans hfresh⟩

/-! ### Batches of events -/

/-- A batch of events is followed at once. -/
theorem InStep.registryChanged (h : InStep c I J K (Names all) (keptAfter events) w)
    (more : List RegistryEvent) (hall : ∀ event ∈ events ++ more, event ∈ all)
    (htells : TellsApart c.itemsNamespace (Tells all))
    (hbase : Naming.isNamespace c.itemsNamespace = true) :
    InStep c I J K (Names all) (keptAfter (events ++ more)) (w.registryChanged more) ∧
      (w.registryChanged more).itemsStale = false := by
  rw [Workspace.registryChanged, if_neg h.phase]
  exact ((h.applyEvents more hall htells).rebuildItems (areKept hall) (fun n hn => hn.1) hbase).2

end LiveRules.Workspace

namespace LiveRules.RegistryEvent

variable {xs ys : List RegistryEvent}

/-- Two runs of events say the same about every name, whatever the order of the names is. -/
def Agree (xs ys : List RegistryEvent) : Prop := ∀ name, about name xs = about name ys

theorem Agree.mem (h : Agree xs ys) {event : RegistryEvent} (hevent : event ∈ xs) : event ∈ ys := by
  have hmem : event ∈ about event.name xs := List.mem_filter.mpr ⟨hevent, by simp⟩
  rw [h event.name] at hmem
  exact (List.mem_filter.mp hmem).1

theorem Agree.append (h : Agree xs ys) (first : List RegistryEvent) :
    Agree (first ++ xs) (first ++ ys) := by
  intro name
  have hname := h name
  rw [about, about] at hname
  rw [about, about, List.filter_append, List.filter_append, hname]

theorem Agree.keptAfter (h : Agree xs ys) :
    RegistryEvent.keptAfter xs = RegistryEvent.keptAfter ys := by
  funext name
  rw [RegistryEvent.keptAfter, RegistryEvent.keptAfter, h name]

end LiveRules.RegistryEvent

namespace LiveRules.Workspace

open Disk RegistryEvent

variable {c : Config} {I J K : Place} {N : String → Prop} {w : Workspace}

/-- The item of a lamp. -/
def lamp : Item := ⟨"L", "S", none⟩

/-- A disk with one rule source. -/
def ruleDisk : Disk where
  entries := [(["src"], .folder), (["src", "A.rule"], .file (Text.encode "package=\"p\"") false)]

/-- A workspace with one rule source, for rule units in a folder that a path leads to. -/
def withRule (ruleClasses : Path) : Workspace :=
  .new
    { folders :=
        { items := ⟨"items"⟩, rules := ⟨"src"⟩, ruleClasses, extlib := ⟨"ext"⟩, jar := ⟨"jar"⟩ }
      rulesNamespace := "p"
      itemsNamespace := "q" }
    .builtin false {} ruleDisk

theorem isOk_iff {ε : Type} {x : Except ε Unit} : x.isOk = true ↔ x = .ok () := by
  cases x <;> simp [Except.isOk, Except.toBool]

end LiveRules.Workspace
