import LiveRules.Proofs.Workspace.Life

/-!
The subscription to events. A workspace joins its engine to the events and parts it from them; the
two calls are made in turns, the first one to join, through every run in which no reload and no
disposal comes before a start has got anywhere. Either of these parts the engine from events to
which it was never joined, so the condition cannot be spared.
-/

namespace LiveRules.Workspace

def Act.isSubscription : Act → Bool
  | .subscribed | .unsubscribed => true
  | _ => false

/-- The calls that join the engine to the events and part it from them, in order. -/
def subscriptions (w : Workspace) : List Act := w.journal.filter Act.isSubscription

/-- Calls that are made in turns, the first one to join. -/
def inTurns (n : Nat) : List Act :=
  (List.range n).map fun i => if i % 2 = 0 then .subscribed else .unsubscribed

/-- Whether an operation parts the engine from the events. -/
def Operation.parts : Operation → Bool
  | .reload | .rulesChanged _ | .dispose => true
  | .start | .registryChanged _ => false

/-- What a workspace becomes through operations, each with the phase in which it was called. In the
meantime items come and go in its registry, and others may write to its disk. -/
inductive Runs (others : Disk → Disk → Prop) (w : Workspace) :
    List (Phase × Operation) → Workspace → Prop where
  | refl : Runs others w [] w
  | perform {calls : List (Phase × Operation)} {v : Workspace} (h : Runs others w calls v)
      (x : Operation) : Runs others w (calls ++ [(v.phase, x)]) (v.perform x)
  | meanwhile {calls : List (Phase × Operation)} {v : Workspace} (h : Runs others w calls v)
      (registry : Registry) {disk : Disk} (hdisk : others v.disk disk) :
      Runs others w calls { v with registry, disk }

/-- No operation of a run parts the engine from the events before a start has got anywhere. -/
def StartsFirst (calls : List (Phase × Operation)) : Prop :=
  ∀ x ∈ calls, x.1 = .uninitialized → x.2.parts = false

variable {w v : Workspace} {disk : Disk} {notes : List Note} {others : Disk → Disk → Prop}
  {calls : List (Phase × Operation)} {n : Nat}

/-! ### Calls in turns -/

theorem inTurns_succ_of_even (h : n % 2 = 0) : inTurns (n + 1) = inTurns n ++ [.subscribed] := by
  rw [inTurns, List.range_succ, List.map_append, List.map_singleton, if_pos h]
  rfl

theorem inTurns_succ_of_odd (h : n % 2 = 1) : inTurns (n + 1) = inTurns n ++ [.unsubscribed] := by
  rw [inTurns, List.range_succ, List.map_append, List.map_singleton, if_neg (by omega)]
  rfl

theorem length_inTurns : (inTurns n).length = n := by
  rw [inTurns, List.length_map, List.length_range]

theorem head?_inTurns : (inTurns n).head? ≠ some .unsubscribed := by
  cases n <;> simp [inTurns, List.range_succ_eq_map]

/-! ### What a step leaves alone -/

theorem subscriptions_record (acts : List Act) :
    (w.record acts).subscriptions = w.subscriptions ++ acts.filter Act.isSubscription :=
  List.filter_append ..

theorem subscriptions_quiet {acts : List Act} (h : acts.filter Act.isSubscription = []) :
    (w.record acts).subscriptions = w.subscriptions := by
  rw [subscriptions_record, h, List.append_nil]

theorem subscriptions_tell : (w.tell notes).subscriptions = w.subscriptions :=
  subscriptions_quiet (List.filter_eq_nil_iff.mpr (by simp [Act.isSubscription]))

theorem subscriptions_disk : { w with disk }.subscriptions = w.subscriptions := rfl

theorem subscriptions_itemsStale (b : Bool) :
    { w with itemsStale := b }.subscriptions = w.subscriptions := rfl

theorem subscriptions_items (b : Bool) :
    { w with disk, itemsStale := b }.subscriptions = w.subscriptions := rfl

theorem subscriptions_rulesOk (b : Bool) :
    { w with rulesOk := b }.subscriptions = w.subscriptions := rfl

theorem subscriptions_engine (x : Engine) :
    { w with engine := x }.subscriptions = w.subscriptions := rfl

theorem subscriptions_phase (x : Phase) :
    { w with phase := x }.subscriptions = w.subscriptions := rfl

theorem subscriptions_generateStubs : w.generateStubs.subscriptions = w.subscriptions := by
  rw [generateStubs, subscriptions_tell, subscriptions_items]

theorem subscriptions_applyEvent (e : RegistryEvent) :
    (w.applyEvent e).subscriptions = w.subscriptions := by
  unfold applyEvent
  dsimp only
  split
  · rw [subscriptions_tell]
  · split <;> simp only [subscriptions_itemsStale, subscriptions_tell, subscriptions_disk]

theorem subscriptions_foldl_applyEvent (events : List RegistryEvent) :
    (events.foldl applyEvent w).subscriptions = w.subscriptions := by
  induction events generalizing w with
  | nil => rfl
  | cons e rest ih => exact ih.trans (subscriptions_applyEvent e)

theorem subscriptions_packItems : w.packItems.2.subscriptions = w.subscriptions := by
  have hpacked : (w.record [.packed]).subscriptions = w.subscriptions := subscriptions_quiet rfl
  unfold packItems
  dsimp only
  split <;> simp only [subscriptions_tell, subscriptions_itemsStale] <;> exact hpacked

theorem subscriptions_rebuildItems : w.rebuildItems.2.subscriptions = w.subscriptions := by
  unfold rebuildItems
  dsimp only
  split
  · rfl
  · split
    · simp only [subscriptions_tell, subscriptions_disk]
    · split
      · rw [subscriptions_packItems, subscriptions_tell, subscriptions_disk]
      · rw [subscriptions_tell, subscriptions_disk]

theorem subscriptions_compileRules : w.compileRules.subscriptions = w.subscriptions := by
  unfold compileRules
  dsimp only
  split <;> simp only [subscriptions_rulesOk, subscriptions_tell, subscriptions_disk]

theorem subscriptions_loadRules : w.loadRules.subscriptions = w.subscriptions := by
  unfold loadRules
  generalize Pass.loaderPath w.disk w.config = x
  obtain ⟨cp, notes⟩ := x
  dsimp only
  generalize LoadReport.ofFolder _ _ _ _ _ = report
  rw [subscriptions_tell]
  exact subscriptions_quiet rfl

theorem subscriptions_startWatcher : w.startWatcher.subscriptions = w.subscriptions := by
  unfold startWatcher
  split
  · exact subscriptions_tell
  · rfl

theorem subscriptions_stopWatcher : w.stopWatcher.subscriptions = w.subscriptions := by
  unfold stopWatcher
  split
  · rfl
  · exact subscriptions_tell

theorem subscriptions_stopLoop : w.stopLoop.subscriptions = w.subscriptions := by
  unfold stopLoop
  split
  · exact subscriptions_tell
  · rfl

/-! ### Operations -/

theorem subscriptions_prepareItems : w.prepareItems.subscriptions = w.subscriptions := by
  have hrebuilt := (subscriptions_rebuildItems
    (w := { w.generateStubs with phase := .stubsGenerated })).trans
    ((subscriptions_phase _).trans subscriptions_generateStubs)
  unfold prepareItems
  dsimp only
  generalize rebuildItems { w.generateStubs with phase := .stubsGenerated } = x at *
  obtain ⟨isFresh, x⟩ := x
  cases isFresh with
  | false => exact (subscriptions_phase _).trans (subscriptions_tell.trans hrebuilt)
  | true => exact (subscriptions_phase _).trans hrebuilt

theorem subscriptions_prepareRules :
    w.prepareRules.subscriptions = w.subscriptions ++ [.subscribed] := by
  have hloaded := (subscriptions_loadRules
    (w := { w.compileRules with phase := .rulesCompiled })).trans
    ((subscriptions_phase _).trans subscriptions_compileRules)
  unfold prepareRules
  dsimp only
  generalize loadRules { w.compileRules with phase := .rulesCompiled } = v at *
  rw [subscriptions_tell, subscriptions_phase, subscriptions_record, hloaded]
  rfl

/-- A start joins the engine to the events if the folders can be set up, and then only. -/
theorem subscriptions_start (h : w.phase = .uninitialized) :
    w.start.subscriptions =
      if (setUp w.config w.disk).1.isOk then w.subscriptions ++ [.subscribed]
      else w.subscriptions := by
  unfold start
  rw [if_neg (by simpa using h)]
  rcases setUp w.config w.disk with ⟨err | ⟨⟩, d⟩ <;> dsimp only
  · exact subscriptions_tell
  · generalize hv : tell _ _ = v
    have hready : v.subscriptions = w.subscriptions := by
      rw [← hv]
      exact subscriptions_tell
    have hwatched : v.prepareItems.prepareRules.startWatcher.subscriptions =
        w.subscriptions ++ [.subscribed] := by
      rw [subscriptions_startWatcher, subscriptions_prepareRules, subscriptions_prepareItems,
        hready]
    generalize v.prepareItems.prepareRules.startWatcher = x at *
    exact hwatched

theorem subscriptions_reload (h : w.phase ≠ .disposed) :
    w.reload.subscriptions = w.subscriptions ++ [.unsubscribed] ++ [.subscribed] := by
  rw [reload, if_neg h]
  dsimp only
  generalize hv : tell _ _ = v
  have hcompiled : v.compileRules.subscriptions = w.subscriptions := by
    rw [subscriptions_compileRules, ← hv]
    exact subscriptions_tell
  generalize v.compileRules = v at *
  have hparted : ({ v with engine := v.engine.reset }.record [.unsubscribed]).subscriptions =
      w.subscriptions ++ [.unsubscribed] := by
    rw [subscriptions_record, subscriptions_engine, hcompiled]
    rfl
  generalize record { v with engine := v.engine.reset } _ = x at *
  have hloaded := subscriptions_loadRules.trans hparted
  generalize x.loadRules = x at *
  rw [subscriptions_phase, subscriptions_quiet rfl, subscriptions_record, hloaded]
  rfl

theorem subscriptions_dispose (h : w.phase ≠ .disposed) :
    w.dispose.subscriptions = w.subscriptions ++ [.unsubscribed] := by
  rw [dispose, if_neg h, subscriptions_tell, subscriptions_record, subscriptions_stopLoop,
    subscriptions_stopWatcher]
  rfl

theorem subscriptions_registryChanged (events : List RegistryEvent) :
    (w.registryChanged events).subscriptions = w.subscriptions := by
  unfold registryChanged
  split
  · rfl
  · rw [subscriptions_rebuildItems, subscriptions_foldl_applyEvent]

/-- What an operation does to the subscription, by the phase in which it is called and in which it
ends. -/
theorem Rests.subscription_cases (h : w.Rests) (x : Operation) :
    ((w.phase = .uninitialized → x.parts = false) ∧ (w.perform x).phase = w.phase ∧
      (w.perform x).subscriptions = w.subscriptions) ∨
    (w.phase = .uninitialized ∧ x.parts = false ∧ (w.perform x).phase ≠ .uninitialized ∧
      (w.perform x).phase ≠ .disposed ∧
      (w.perform x).subscriptions = w.subscriptions ++ [.subscribed]) ∨
    (w.phase ≠ .disposed ∧ x.parts = true ∧ (w.perform x).phase = w.phase ∧
      (w.perform x).subscriptions = w.subscriptions ++ [.unsubscribed] ++ [.subscribed]) ∨
    (w.phase ≠ .disposed ∧ x.parts = true ∧ (w.perform x).phase = .disposed ∧
      (w.perform x).subscriptions = w.subscriptions ++ [.unsubscribed]) := by
  have hdone {v : Workspace} (hphase : w.phase = .disposed) (hv : v.phase = w.phase)
      (hsame : v.subscriptions = w.subscriptions) :
      (w.phase = .uninitialized → x.parts = false) ∧ v.phase = w.phase ∧
        v.subscriptions = w.subscriptions :=
    ⟨fun hno => absurd (hno.symm.trans hphase) (by decide), hv, hsame⟩
  cases x with
  | start =>
    by_cases hphase : w.phase = .uninitialized
    · have hcalls := subscriptions_start hphase
      rcases h.start_cases hphase with ⟨hno, hlife⟩ | ⟨hmade, -, hstarted⟩
      · rw [hno, if_neg (by decide)] at hcalls
        exact .inl ⟨fun _ => rfl, phase_of_life hlife, hcalls⟩
      · rw [hmade, if_pos rfl] at hcalls
        refine .inr (.inl ⟨hphase, rfl, ?_, ?_, hcalls⟩) <;>
          rcases hstarted with hno | hno <;> exact fun hphase => by cases hno.symm.trans hphase
    · obtain ⟨notes, hnotes⟩ := start_of_started hphase
      exact .inl ⟨fun _ => rfl, phase_of_life ((congrArg life hnotes).trans life_tell),
        (congrArg subscriptions hnotes).trans subscriptions_tell⟩
  | registryChanged events =>
    exact .inl ⟨fun _ => rfl, phase_of_life (life_registryChanged events),
      subscriptions_registryChanged events⟩
  | reload =>
    rcases h.reload_cases with ⟨hphase, hsame⟩ | ⟨hphase, -, hresumed⟩
    · exact .inl (hdone hphase (congrArg _ hsame) (congrArg _ hsame))
    · exact .inr (.inr (.inl ⟨hphase, rfl, hresumed, subscriptions_reload hphase⟩))
  | rulesChanged changes =>
    have htold : (w.tellChanges changes).subscriptions = w.subscriptions := subscriptions_tell
    rcases (h.rulesChanged changes).reload_cases with ⟨hphase, hsame⟩ | ⟨hphase, -, hresumed⟩
    · exact .inl (hdone hphase (congrArg Workspace.phase hsame :)
        ((congrArg subscriptions hsame :).trans htold))
    · exact .inr (.inr (.inl ⟨hphase, rfl, hresumed,
        (subscriptions_reload hphase).trans (by rw [htold])⟩))
  | dispose =>
    by_cases hphase : w.phase = .disposed
    · have hsame : w.dispose = w := if_pos hphase
      exact .inl (hdone hphase (congrArg _ hsame) (congrArg _ hsame))
    · rcases dispose_cases (w := w) with ⟨hno, -⟩ | hlife
      · exact absurd hno hphase
      · exact .inr (.inr (.inr ⟨hphase, rfl, congrArg Prod.fst hlife,
          subscriptions_dispose hphase⟩))

/-! ### Runs -/

/-- The calls so far were made in turns: none before a start has got anywhere, and the last one
parted the engine from the events if the workspace is disposed, and joined it to them otherwise. -/
def TakesTurns (w : Workspace) : Prop :=
  ∃ n, w.subscriptions = inTurns n ∧ (w.phase = .uninitialized → n = 0) ∧
    (w.phase ≠ .uninitialized → (n % 2 = 0 ↔ w.phase = .disposed))

theorem TakesTurns.perform (h : w.TakesTurns) (hrests : w.Rests) {x : Operation}
    (hfirst : w.phase = .uninitialized → x.parts = false) : (w.perform x).TakesTurns := by
  obtain ⟨n, hn, hzero, hlast⟩ := h
  have hstarted (hparts : x.parts = true) : w.phase ≠ .uninitialized := fun hno => by
    rw [hfirst hno] at hparts
    cases hparts
  rcases hrests.subscription_cases x with ⟨-, hphase, hcalls⟩ |
    ⟨hphase, -, hmoved, hopen, hcalls⟩ | ⟨hphase, hparts, hsame, hcalls⟩ |
    ⟨hphase, hparts, hdisposed, hcalls⟩
  · -- nothing is called
    rw [TakesTurns, hphase, hcalls]
    exact ⟨n, hn, hzero, hlast⟩
  · -- the start that gets somewhere makes the first call
    obtain rfl := hzero hphase
    refine ⟨1, ?_, fun hno => absurd hno hmoved, fun _ => ⟨fun hno => ?_, fun hno => ?_⟩⟩
    · rw [hcalls, hn, inTurns_succ_of_even rfl]
    · cases hno
    · exact absurd hno hopen
  · -- a reload: the last call joined, so parting and joining again keep the turns
    have hodd : n % 2 = 1 := by
      have := mt (hlast (hstarted hparts)).mp hphase
      omega
    rw [TakesTurns, hsame, hcalls]
    refine ⟨n + 2, ?_, fun hno => absurd hno (hstarted hparts), fun _ => ?_⟩
    · rw [hn, inTurns_succ_of_even (by omega), inTurns_succ_of_odd hodd]
    · rw [Nat.add_mod_right]
      exact hlast (hstarted hparts)
  · -- the disposal parts for the last time
    have hodd : n % 2 = 1 := by
      have := mt (hlast (hstarted hparts)).mp hphase
      omega
    rw [TakesTurns, hdisposed, hcalls]
    refine ⟨n + 1, by rw [hn, inTurns_succ_of_odd hodd], fun hno => ?_, fun _ => ?_⟩
    · cases hno
    · exact ⟨fun _ => rfl, fun _ => by omega⟩

/-- Calls are only ever added. -/
theorem Rests.subscriptions_perform (h : w.Rests) (x : Operation) :
    ∃ more, (w.perform x).subscriptions = w.subscriptions ++ more := by
  rcases h.subscription_cases x with ⟨-, -, hcalls⟩ | ⟨-, -, -, -, hcalls⟩ | ⟨-, -, -, hcalls⟩ |
    ⟨-, -, -, hcalls⟩
  · exact ⟨[], hcalls.trans (List.append_nil _).symm⟩
  · exact ⟨_, hcalls⟩
  · exact ⟨_, hcalls.trans (List.append_assoc ..)⟩
  · exact ⟨_, hcalls⟩

theorem startsFirst_append {x : Phase × Operation} :
    StartsFirst (calls ++ [x]) ↔
      StartsFirst calls ∧ (x.1 = .uninitialized → x.2.parts = false) := by
  simp only [StartsFirst, List.forall_mem_append, List.forall_mem_singleton]

/-- Either the calls are made in turns, or the first one parts the engine from the events. -/
theorem Runs.subscription_cases (h : w.Runs others calls v) (hrests : w.Rests)
    (hturns : w.TakesTurns) :
    v.Rests ∧ ((StartsFirst calls ∧ v.TakesTurns) ∨
      (¬StartsFirst calls ∧ v.subscriptions.head? = some .unsubscribed)) := by
  induction h with
  | refl => exact ⟨hrests, .inl ⟨by simp [StartsFirst], hturns⟩⟩
  | meanwhile _ _ _ ih => exact ⟨ih.1.of_life rfl, ih.2⟩
  | @perform calls v _ x ih =>
    obtain ⟨hv, ih⟩ := ih
    refine ⟨(hv.perform x).1, ?_⟩
    rw [startsFirst_append]
    rcases ih with ⟨hstarts, hturns⟩ | ⟨hno, hhead⟩
    · by_cases hfirst : v.phase = .uninitialized → x.parts = false
      · exact .inl ⟨⟨hstarts, hfirst⟩, hturns.perform hv hfirst⟩
      · -- a reload or a disposal that comes too early makes the very first call
        refine .inr ⟨fun hno => hfirst hno.2, ?_⟩
        obtain ⟨hphase, hparts⟩ := Classical.not_imp.mp hfirst
        obtain ⟨n, hn, hzero, -⟩ := hturns
        obtain rfl := hzero hphase
        rcases hv.subscription_cases x with ⟨hno, -, -⟩ | ⟨-, hno, -, -, -⟩ | ⟨-, -, -, hcalls⟩ |
          ⟨-, -, -, hcalls⟩
        · exact absurd (hno hphase) hparts
        · exact absurd hno hparts
        · rw [hcalls, hn]
          rfl
        · rw [hcalls, hn]
          rfl
    · -- what comes later leaves the first call the first
      obtain ⟨more, hmore⟩ := hv.subscriptions_perform x
      refine .inr ⟨fun h => hno h.1, ?_⟩
      rw [hmore, List.head?_append, hhead]
      rfl

/-- Through every run from a new workspace, in whatever order operations are performed, the engine
is joined to the events and parted from them in turns, first joined, if and only if no reload and no
disposal comes before a start has got anywhere. -/
theorem subscription_takes_turns_iff (c : Config) (tool : Tool) (watches : Bool)
    (registry : Registry) (disk : Disk)
    (h : (new c tool watches registry disk).Runs others calls w) :
    w.subscriptions = inTurns w.subscriptions.length ↔ StartsFirst calls := by
  have hnew : (new c tool watches registry disk).TakesTurns :=
    ⟨0, rfl, fun _ => rfl, fun hno => absurd rfl hno⟩
  rcases (h.subscription_cases rests_new hnew).2 with ⟨hstarts, n, hn, -, -⟩ | ⟨hno, hhead⟩
  · refine iff_of_true ?_ hstarts
    rw [hn, length_inTurns]
  · refine iff_of_false (fun hturns => ?_) hno
    rw [hturns] at hhead
    exact head?_inTurns hhead

/-- A start, a reload and a disposal make four calls in turns. -/
theorem subscription_takes_turns_overNothing :
    ∃ calls w, overNothing.Runs Eq calls w ∧ StartsFirst calls ∧ w.subscriptions.length = 4 ∧
      w.subscriptions = inTurns w.subscriptions.length := by
  have hrest : overNothing.Runs Eq [] overNothing := .refl
  have hrun := ((hrest.perform .start).perform .reload).perform .dispose
  have hmade : (setUp overNothing.config overNothing.disk).1.isOk = true := by decide +kernel
  have hrests : overNothing.Rests := rests_new
  have hstarted : overNothing.start.phase = .instancesLoaded ∨
      overNothing.start.phase = .watching := by
    rcases hrests.start_cases rfl with ⟨hno, -⟩ | ⟨-, -, hstarted⟩
    · exact absurd (hno.symm.trans hmade) (by decide)
    · exact hstarted
  have hopen : overNothing.start.phase ≠ .disposed := by
    rcases hstarted with hphase | hphase <;> rw [hphase] <;> decide
  have hfirst : overNothing.start.phase ≠ .uninitialized := by
    rcases hstarted with hphase | hphase <;> rw [hphase] <;> decide
  have hsecond : overNothing.start.reload.phase = overNothing.start.phase := by
    rcases (hrests.perform .start).1.reload_cases with ⟨hno, -⟩ | ⟨-, -, hphase⟩
    · exact absurd hno hopen
    · exact hphase
  have hcalls : overNothing.start.reload.dispose.subscriptions.length = 4 := by
    rw [subscriptions_dispose fun hno => hopen (hsecond.symm.trans hno), subscriptions_reload hopen,
      subscriptions_start rfl, hmade]
    rfl
  have hstarts {first second : Phase} (hfirst : first ≠ .uninitialized)
      (hsecond : second ≠ .uninitialized) :
      StartsFirst ([] ++ [(overNothing.phase, .start)] ++ [(first, .reload)] ++
        [(second, .dispose)]) := by
    simp [StartsFirst, Operation.parts, hfirst, hsecond]
  have hstarts := hstarts hfirst fun hno => hfirst (hsecond.symm.trans hno)
  exact ⟨_, _, hrun, hstarts, hcalls,
    (subscription_takes_turns_iff _ _ _ _ _ hrun).mpr hstarts⟩

/-- A workspace that is reloaded before it is started parts its engine from events to which it was
never joined, and then joins it twice; one that is only disposed parts it, too. -/
theorem subscription_doubles :
    (∃ calls w, overNothing.Runs Eq calls w ∧
      w.subscriptions = [.unsubscribed, .subscribed, .subscribed]) ∧
    ∃ calls w, overNothing.Runs Eq calls w ∧ w.subscriptions = [.unsubscribed] := by
  have hrests : overNothing.Rests := rests_new
  have hfirst : overNothing.reload.phase = .uninitialized := by
    rcases hrests.reload_cases with ⟨hno, -⟩ | ⟨-, -, hphase⟩
    · cases hno
    · exact hphase
  have hmade : (setUp overNothing.reload.config overNothing.reload.disk).1.isOk = true := by
    decide +kernel
  refine ⟨⟨_, _, (Runs.refl.perform .reload).perform .start, ?_⟩,
    ⟨_, _, Runs.refl.perform .dispose, subscriptions_dispose (by decide)⟩⟩
  refine (subscriptions_start hfirst).trans ?_
  rw [hmade, if_pos rfl, subscriptions_reload (by decide)]
  rfl

end LiveRules.Workspace
