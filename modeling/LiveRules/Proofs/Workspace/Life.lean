import LiveRules.Workspace.Loop

/-!
The life of a workspace. Whatever operations are performed on it, in whatever order, and whatever
becomes of its registry and its disk in the meantime, its phase only moves forward and rests in one
of four, and the number of its generation counts the times that rules were loaded. It is set up
once, and nothing happens to it after it is disposed.
-/

namespace LiveRules.Workspace

/-- What is done with a workspace. -/
inductive Operation where
  | start
  | registryChanged (events : List RegistryEvent)
  | reload
  | rulesChanged (changes : List Change)
  | dispose

def perform (w : Workspace) : Operation → Workspace
  | .start => w.start
  | .registryChanged events => w.registryChanged events
  | .reload => w.reload
  | .rulesChanged changes => w.rulesChanged changes
  | .dispose => w.dispose

/-- What a workspace becomes through operations. In the meantime items come and go in its registry,
and others may write to its disk. -/
inductive Becomes (others : Disk → Disk → Prop) (w : Workspace) : Workspace → Prop where
  | refl : Becomes others w w
  | perform {v : Workspace} (h : Becomes others w v) (x : Operation) :
      Becomes others w (v.perform x)
  | meanwhile {v : Workspace} (h : Becomes others w v) (registry : Registry) {disk : Disk}
      (hdisk : others v.disk disk) : Becomes others w { v with registry, disk }

variable {w v : Workspace} {disk : Disk} {notes : List Note} {others : Disk → Disk → Prop}

/-! ### What a step leaves alone -/

/-- Where a workspace is in its life: its phase, its last generation, its engine, and how often
rules were loaded. -/
def life (w : Workspace) : Phase × Nat × Engine × Nat :=
  (w.phase, w.generation, w.engine, w.journal.count .loaded)

theorem life_record {acts : List Act} (h : .loaded ∉ acts) : (w.record acts).life = w.life := by
  rw [life, record, List.count_append, List.count_eq_zero.mpr h]
  rfl

theorem life_tell : (w.tell notes).life = w.life := life_record (by simp)

theorem life_told (x : Output) : (w.record [.told x]).life = w.life := life_record (by simp)

theorem life_disk : { w with disk }.life = w.life := rfl

theorem life_itemsStale (b : Bool) : { w with itemsStale := b }.life = w.life := rfl

theorem life_rulesOk (b : Bool) : { w with rulesOk := b }.life = w.life := rfl

theorem life_items (b : Bool) : { w with disk, itemsStale := b }.life = w.life := rfl

theorem life_generateStubs : w.generateStubs.life = w.life := by
  rw [generateStubs, life_tell, life_items]

theorem life_applyEvent (e : RegistryEvent) : (w.applyEvent e).life = w.life := by
  unfold applyEvent
  dsimp only
  split
  · rw [life_tell]
  · split <;> simp only [life_itemsStale, life_tell, life_disk]

theorem life_foldl_applyEvent (events : List RegistryEvent) :
    (events.foldl applyEvent w).life = w.life := by
  induction events generalizing w with
  | nil => rfl
  | cons e rest ih => exact ih.trans (life_applyEvent e)

theorem life_packItems : w.packItems.2.life = w.life := by
  have hpacked : (w.record [.packed]).life = w.life := life_record (by decide)
  unfold packItems
  dsimp only
  split <;> simp only [life_tell, life_itemsStale] <;> exact hpacked

theorem life_rebuildItems : w.rebuildItems.2.life = w.life := by
  unfold rebuildItems
  dsimp only
  split
  · rfl
  · split
    · simp only [life_tell, life_disk]
    · split
      · rw [life_packItems, life_tell, life_disk]
      · rw [life_tell, life_disk]

theorem life_compileRules : w.compileRules.life = w.life := by
  unfold compileRules
  dsimp only
  split <;> simp only [life_rulesOk, life_tell, life_disk]

theorem life_stopWatcher : w.stopWatcher.life = w.life := by
  unfold stopWatcher
  split
  · rfl
  · rw [life_tell]
    rfl

theorem life_stopLoop : w.stopLoop.life = w.life := by
  unfold stopLoop
  split
  · rw [life_tell]
    rfl
  · rfl

/-! ### What holds between operations -/

/-- The number of the last generation is that of the engine, and counts the times that rules were
loaded. -/
structure Counts (w : Workspace) : Prop where
  generation : w.generation = w.journal.count .loaded
  engine : w.engine.current.id = w.generation

theorem Counts.of_life (h : w.Counts) (hlife : v.life = w.life) : v.Counts := by
  simp only [life, Prod.mk.injEq] at hlife
  obtain ⟨-, hgeneration, hengine, hloaded⟩ := hlife
  exact ⟨by rw [hgeneration, hloaded, h.generation], by rw [hengine, hgeneration, h.engine]⟩

theorem Counts.phase (h : w.Counts) (x : Phase) : { w with phase := x }.Counts :=
  ⟨h.generation, h.engine⟩

/-- Loading rules makes a new generation, whatever became of the old one. -/
theorem Counts.loadRules (h : w.Counts) : w.loadRules.Counts := by
  unfold Workspace.loadRules
  generalize Pass.loaderPath w.disk w.config = x
  obtain ⟨cp, notes⟩ := x
  dsimp only
  generalize LoadReport.ofFolder _ _ _ _ _ = report
  refine Counts.of_life ⟨?_, rfl⟩ life_tell
  show w.generation + 1 = (w.journal ++ [Act.loaded]).count .loaded
  rw [List.count_append, h.generation]
  rfl

theorem Counts.reset (h : w.Counts) : { w with engine := w.engine.reset }.Counts :=
  ⟨h.generation, h.engine⟩

theorem Counts.prepareItems (h : w.Counts) : w.prepareItems.Counts := by
  have hstubs := (h.of_life life_generateStubs).phase .stubsGenerated
  have hrebuilt := hstubs.of_life life_rebuildItems
  unfold Workspace.prepareItems
  dsimp only
  generalize Workspace.rebuildItems { w.generateStubs with phase := .stubsGenerated } = x at *
  obtain ⟨isFresh, x⟩ := x
  cases isFresh with
  | false => exact (hrebuilt.of_life life_tell).phase _
  | true => exact hrebuilt.phase _

theorem Counts.prepareRules (h : w.Counts) : w.prepareRules.Counts := by
  have hloaded := ((h.of_life life_compileRules).phase .rulesCompiled).loadRules
  exact ((hloaded.of_life (life_record (by decide))).phase .instancesLoaded).of_life life_tell

theorem Counts.startWatcher (h : w.Counts) : w.startWatcher.Counts := by
  unfold Workspace.startWatcher
  split
  · refine Counts.of_life ?_ life_tell
    exact ⟨h.generation, h.engine⟩
  · exact h

theorem phase_startWatcher :
    w.startWatcher.phase = w.phase ∨ w.startWatcher.phase = .watching := by
  unfold startWatcher
  split
  · rcases Watcher.start w.disk w.config.folders.rules Naming.sourceExtension with ⟨watcher, notes⟩
    cases hrunning : watcher.isRunning with
    | false => exact .inl (by simp [hrunning, tell, record])
    | true => exact .inr (by simp [hrunning, tell, record])
  · exact .inl rfl

theorem phase_of_life (h : v.life = w.life) : v.phase = w.phase := congrArg Prod.fst h

theorem engine_of_life (h : v.life = w.life) : v.engine = w.engine := congrArg (·.2.2.1) h

/-- What holds of a workspace between operations. -/
structure Rests (w : Workspace) : Prop extends w.Counts where
  phase : w.phase = .uninitialized ∨ w.phase = .instancesLoaded ∨ w.phase = .watching ∨
    w.phase = .disposed
  emptied : w.phase = .disposed → w.engine.current.contexts = []

theorem Rests.of_life (h : w.Rests) (hlife : v.life = w.life) : v.Rests where
  toCounts := h.toCounts.of_life hlife
  phase := by
    rw [phase_of_life hlife]
    exact h.phase
  emptied := by
    rw [phase_of_life hlife, engine_of_life hlife]
    exact h.emptied

theorem rests_new {c : Config} {tool : Tool} {watches : Bool} {registry : Registry} :
    (new c tool watches registry disk).Rests :=
  ⟨⟨rfl, rfl⟩, .inl rfl, fun h => by cases h⟩

/-! ### Operations -/

/-- A workspace whose folders cannot be set up stays as it is. Otherwise it goes through its phases
up to the one in which its rules are loaded, or watched. -/
theorem Rests.start_cases (h : w.Rests) (hphase : w.phase = .uninitialized) :
    ((setUp w.config w.disk).1.isOk = false ∧ w.start.life = w.life) ∨
      ((setUp w.config w.disk).1.isOk = true ∧ w.start.Counts ∧
        (w.start.phase = .instancesLoaded ∨ w.start.phase = .watching)) := by
  unfold start
  rw [if_neg (by simpa using hphase)]
  rcases setUp w.config w.disk with ⟨err | ⟨⟩, d⟩ <;> dsimp only
  · exact .inl ⟨rfl, life_tell.trans life_disk⟩
  · refine .inr ⟨rfl, ?_⟩
    generalize hv : Workspace.tell _ _ = v
    have hready : v.Counts := by
      rw [← hv]
      exact (h.toCounts.phase .foldersReady).of_life life_tell
    have hloaded := hready.prepareItems.prepareRules
    have hphases := phase_startWatcher (w := v.prepareItems.prepareRules)
    have hwatched := hloaded.startWatcher
    generalize v.prepareItems.prepareRules.startWatcher = x at *
    exact ⟨⟨hwatched.generation, hwatched.engine⟩, hphases⟩

theorem start_of_started (h : w.phase ≠ .uninitialized) : ∃ notes, w.start = w.tell notes := by
  rw [start, if_pos h]
  exact ⟨_, rfl⟩

/-- Between operations no reload is under way, so the phase that a reload goes back to is the one
that it was called in. -/
theorem Rests.resumed_eq (h : w.Rests) : w.phase.resumed = w.phase := by
  rcases h.phase with hphase | hphase | hphase | hphase <;> rw [hphase] <;> rfl

theorem Rests.reload_cases (h : w.Rests) :
    (w.phase = .disposed ∧ w.reload = w) ∨
      (w.phase ≠ .disposed ∧ w.reload.Counts ∧ w.reload.phase = w.phase) := by
  by_cases hphase : w.phase = .disposed
  · exact .inl ⟨hphase, if_pos hphase⟩
  · refine .inr ⟨hphase, ?_, ?_⟩ <;> rw [reload, if_neg hphase]
    · apply Counts.phase
      refine Counts.of_life (Counts.of_life ?_ (life_record (by decide))) (life_told _)
      apply Counts.loadRules
      refine Counts.of_life ?_ (life_record (by decide))
      apply Counts.reset
      refine Counts.of_life ?_ life_compileRules
      exact (h.toCounts.phase .reloading).of_life life_tell
    · exact h.resumed_eq

theorem Rests.rulesChanged (h : w.Rests) (changes : List Change) :
    (w.tellChanges changes).Rests := h.of_life life_tell

theorem life_registryChanged (events : List RegistryEvent) :
    (w.registryChanged events).life = w.life := by
  unfold registryChanged
  split
  · rfl
  · rw [life_rebuildItems, life_foldl_applyEvent]

theorem dispose_cases :
    (w.phase = .disposed ∧ w.dispose = w) ∨
      w.dispose.life = (.disposed, w.generation, w.engine.reset, w.journal.count .loaded) := by
  by_cases hphase : w.phase = .disposed
  · exact .inl ⟨hphase, if_pos hphase⟩
  · right
    rw [dispose, if_neg hphase, life_tell, life_record (by decide), life_stopLoop,
      life_stopWatcher]
    rfl

/-- Every operation keeps what holds between operations, and takes the phase no step back. -/
theorem Rests.perform (h : w.Rests) (x : Operation) :
    (w.perform x).Rests ∧ w.phase.rank ≤ (w.perform x).phase.rank := by
  have hsame {v : Workspace} (hlife : v.life = w.life) :
      v.Rests ∧ w.phase.rank ≤ v.phase.rank :=
    ⟨h.of_life hlife, Nat.le_of_eq (congrArg Phase.rank (phase_of_life hlife)).symm⟩
  have hreload {v : Workspace} (hv : v.Rests) : v.reload.Rests ∧ v.reload.phase = v.phase := by
    rcases hv.reload_cases with ⟨-, hdisposed⟩ | ⟨hphase, hcounts, hresumed⟩
    · rw [hdisposed]
      exact ⟨hv, rfl⟩
    · refine ⟨⟨hcounts, hresumed ▸ hv.phase, fun hno => ?_⟩, hresumed⟩
      exact absurd (hresumed.symm.trans hno) hphase
  cases x with
  | start =>
    show w.start.Rests ∧ _
    by_cases hphase : w.phase = .uninitialized
    · rcases h.start_cases hphase with ⟨-, hlife⟩ | ⟨-, hcounts, hstarted⟩
      · exact hsame hlife
      · refine ⟨⟨hcounts, .inr (hstarted.imp_right .inl), fun hno => ?_⟩, ?_⟩
        · rw [hno] at hstarted
          rcases hstarted with hno | hno <;> cases hno
        · rw [hphase]
          exact Nat.zero_le _
    · obtain ⟨notes, hnotes⟩ := start_of_started hphase
      exact hsame (hnotes ▸ life_tell)
  | registryChanged events => exact hsame (life_registryChanged events)
  | reload =>
    obtain ⟨hrests, hphase⟩ := hreload h
    exact ⟨hrests, Nat.le_of_eq (congrArg Phase.rank hphase).symm⟩
  | rulesChanged changes =>
    obtain ⟨hrests, hphase⟩ := hreload (h.rulesChanged changes)
    exact ⟨hrests, Nat.le_of_eq (congrArg Phase.rank hphase).symm⟩
  | dispose =>
    show w.dispose.Rests ∧ w.phase.rank ≤ w.dispose.phase.rank
    rcases dispose_cases (w := w) with ⟨-, hdisposed⟩ | hlife
    · rw [hdisposed]
      exact ⟨h, Nat.le_refl _⟩
    · simp only [life, Prod.mk.injEq] at hlife
      obtain ⟨hphase, hgeneration, hengine, hloaded⟩ := hlife
      refine ⟨⟨⟨?_, ?_⟩, .inr (.inr (.inr hphase)), fun _ => ?_⟩, ?_⟩
      · rw [hgeneration, hloaded, h.generation]
      · rw [hengine, hgeneration]
        exact h.engine
      · rw [hengine]
        rfl
      · rw [hphase]
        cases w.phase <;> decide

theorem Rests.becomes (h : w.Rests) (hv : w.Becomes others v) :
    v.Rests ∧ w.phase.rank ≤ v.phase.rank := by
  induction hv with
  | refl => exact ⟨h, Nat.le_refl _⟩
  | perform _ x ih =>
    obtain ⟨hrests, hrank⟩ := ih.1.perform x
    exact ⟨hrests, Nat.le_trans ih.2 hrank⟩
  | meanwhile _ _ _ ih => exact ⟨ih.1.of_life rfl, ih.2⟩

/-- After it is disposed, a workspace does no more than tell that it was asked to. -/
theorem perform_of_disposed (h : w.phase = .disposed) (x : Operation) :
    ∃ notes, w.perform x = w.tell notes := by
  have hnothing : w = w.tell [] := by simp [tell, record]
  cases x with
  | start => exact start_of_started (by rw [h]; decide)
  | registryChanged events => exact ⟨[], (if_pos h).trans hnothing⟩
  | reload => exact ⟨[], (if_pos h).trans hnothing⟩
  | rulesChanged changes => exact ⟨_, if_pos h⟩
  | dispose => exact ⟨[], (if_pos h).trans hnothing⟩

/-- Through every run from a new workspace, the phase is one of four that an operation ends in and
never falls back; the number of the generation counts the loads and is that of the engine; once a
start has got anywhere, no later start does more than tell that it was asked to; and a workspace that
is disposed has no contexts and does no more than that, whatever the operation. -/
theorem life_cycle (c : Config) (tool : Tool) (watches : Bool) (registry : Registry) (disk : Disk)
    (h : (new c tool watches registry disk).Becomes others w) :
    (w.phase = .uninitialized ∨ w.phase = .instancesLoaded ∨ w.phase = .watching ∨
      w.phase = .disposed) ∧
    (∀ v, w.Becomes others v → w.phase.rank ≤ v.phase.rank) ∧
    w.generation = w.journal.count .loaded ∧
    w.engine.current.id = w.generation ∧
    (w.start.phase ≠ .uninitialized →
      ∀ v, w.start.Becomes others v → ∃ notes, v.start = v.tell notes) ∧
    (w.phase = .disposed → w.engine.current.contexts = [] ∧
      ∀ x, ∃ notes, w.perform x = w.tell notes) := by
  obtain ⟨hrests, -⟩ := rests_new.becomes h
  refine ⟨hrests.phase, fun v hv => (hrests.becomes hv).2, hrests.generation, hrests.engine,
    fun hstarted v hv => ?_, fun hphase => ⟨hrests.emptied hphase, perform_of_disposed hphase⟩⟩
  have hrank : w.start.phase.rank ≤ v.phase.rank := ((hrests.perform .start).1.becomes hv).2
  refine start_of_started fun hno => hstarted ?_
  rw [hno] at hrank
  cases hphase : w.start.phase <;> rw [hphase] at hrank <;> first | rfl | cases hrank

/-- A workspace over an empty disk. -/
def overNothing : Workspace := new {} .builtin false {} { entries := [] }

/-- It can be started and disposed, but not started again after either. -/
theorem life_cycle_overNothing :
    (overNothing.start.phase ≠ .uninitialized ∧
      ∃ notes, overNothing.start.start = overNothing.start.tell notes) ∧
    ∃ w, overNothing.Becomes Eq w ∧ w.engine.current.contexts = [] ∧
      ∃ notes, w.start = w.tell notes := by
  have hrests : overNothing.Rests := rests_new
  have hrun : overNothing.Becomes Eq overNothing := .refl
  have hphase : overNothing.start.phase ≠ .uninitialized := by
    rcases hrests.start_cases rfl with ⟨hno, -⟩ | ⟨-, -, hstarted⟩
    · exact absurd hno (by decide +kernel)
    · rcases hstarted with hphase | hphase <;> rw [hphase] <;> decide
  have hdisposed : (overNothing.perform .dispose).phase = .disposed := by decide +kernel
  obtain ⟨-, -, -, -, hagain, -⟩ := life_cycle _ _ _ _ _ hrun
  obtain ⟨-, -, -, -, -, hend⟩ := life_cycle _ _ _ _ _ (hrun.perform .dispose)
  obtain ⟨hempty, hnothing⟩ := hend hdisposed
  exact ⟨⟨hphase, hagain hphase _ .refl⟩, _, hrun.perform .dispose, hempty, hnothing .start⟩

end LiveRules.Workspace
