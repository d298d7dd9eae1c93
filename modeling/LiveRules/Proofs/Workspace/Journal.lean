import LiveRules.Proofs.Workspace.Life

/-!
What was told stays told. Whatever is done with a workspace, its journal only goes on, so that what
stands in the journal at the end was told on the way or is not told at all.
-/

namespace LiveRules.Workspace

variable {w v x : Workspace} {notes : List Note}

/-- The journal of a workspace goes on where that of another one ends. -/
def Extends (w v : Workspace) : Prop := w.journal <+: v.journal

theorem Extends.trans (h : w.Extends v) (h' : v.Extends x) : w.Extends x := List.IsPrefix.trans h h'

theorem extends_refl : w.Extends w := List.prefix_rfl

theorem extends_record {acts : List Act} : w.Extends (w.record acts) := List.prefix_append _ _

theorem extends_tell : w.Extends (w.tell notes) := extends_record

theorem extends_generateStubs : w.Extends w.generateStubs := extends_tell

theorem extends_applyEvent (event : RegistryEvent) : w.Extends (w.applyEvent event) := by
  unfold applyEvent
  dsimp only
  split
  · exact extends_tell
  · split
    · exact extends_tell
    · exact extends_tell
    · exact Extends.trans (v := Workspace.tell { w with disk := _ } _) extends_tell extends_tell

theorem extends_applyEvents (events : List RegistryEvent) :
    w.Extends (events.foldl applyEvent w) := by
  induction events generalizing w with
  | nil => exact extends_refl
  | cons event rest ih => exact (extends_applyEvent event).trans ih

theorem extends_packItems : w.Extends w.packItems.2 := by
  unfold packItems
  dsimp only
  split <;> exact Extends.trans (v := w.record [.packed]) extends_record extends_tell

theorem extends_rebuildItems : w.Extends w.rebuildItems.2 := by
  unfold rebuildItems
  split
  · exact extends_refl
  · dsimp only
    generalize Pass.compileItems w.tool w.config w.disk = y
    have hfirst : w.Extends ({ w with disk := y.disk }.tell y.notes) := extends_tell
    split
    · exact hfirst.trans extends_tell
    · split
      · exact hfirst.trans extends_packItems
      · exact hfirst

theorem extends_registryChanged (events : List RegistryEvent) :
    w.Extends (w.registryChanged events) := by
  unfold registryChanged
  split
  · exact extends_refl
  · exact (extends_applyEvents events).trans extends_rebuildItems

theorem extends_compileRules : w.Extends w.compileRules := by
  unfold compileRules
  dsimp only
  generalize Pass.compileRules w.tool w.config w.disk = y
  have hfirst : w.Extends ({ w with disk := y.disk }.tell y.notes) := extends_tell
  split
  · exact hfirst
  · exact hfirst.trans extends_tell

theorem extends_loadRules : w.Extends w.loadRules := by
  unfold loadRules
  generalize Pass.loaderPath w.disk w.config = loader
  obtain ⟨cp, notes⟩ := loader
  dsimp only
  generalize LoadReport.ofFolder _ _ _ _ _ = report
  exact (List.prefix_append w.journal [.loaded]).trans (List.prefix_append _ _)

theorem extends_reload : w.Extends w.reload := by
  unfold reload
  split
  · exact extends_refl
  · dsimp only
    have hcompiled := extends_compileRules (w := { w with phase := .reloading }.tell
      [note "reload" ("reloading rules from " ++ w.config.folders.rules.text)])
    generalize Workspace.compileRules _ = v at hcompiled ⊢
    have hloaded := extends_loadRules (w := { v with engine := v.engine.reset }.record [.unsubscribed])
    generalize Workspace.loadRules _ = x at hloaded ⊢
    have hfirst : w.Extends v := List.IsPrefix.trans (List.prefix_append w.journal _) hcompiled
    have hsecond : v.Extends x := List.IsPrefix.trans (List.prefix_append v.journal _) hloaded
    exact (hfirst.trans hsecond).trans
      ((List.prefix_append x.journal [.subscribed]).trans (List.prefix_append _ _))

theorem extends_stopWatcher : w.Extends w.stopWatcher := by
  unfold stopWatcher
  split
  · exact extends_refl
  · exact extends_tell

theorem extends_stopLoop : w.Extends w.stopLoop := by
  unfold stopLoop
  split
  · exact extends_tell
  · exact extends_refl

theorem extends_dispose : w.Extends w.dispose := by
  unfold dispose
  split
  · exact extends_refl
  · dsimp only
    have hwatcher := extends_stopWatcher
      (w := { w with engine := w.engine.reset, phase := .disposed })
    generalize Workspace.stopWatcher _ = v at hwatcher ⊢
    have hloop := extends_stopLoop (w := v)
    generalize v.stopLoop = x at hloop ⊢
    have hstopped : w.Extends x := List.IsPrefix.trans hwatcher hloop
    exact hstopped.trans ((List.prefix_append x.journal _).trans (List.prefix_append _ _))

theorem generateStubs_extends_prepareItems : w.generateStubs.Extends w.prepareItems := by
  unfold prepareItems
  generalize w.generateStubs = v
  have hrebuilt := extends_rebuildItems (w := { v with phase := .stubsGenerated })
  dsimp only
  generalize Workspace.rebuildItems _ = y at hrebuilt ⊢
  obtain ⟨isFresh, x⟩ := y
  have hready : v.Extends x := hrebuilt
  cases isFresh with
  | true => exact hready
  | false => exact hready.trans (List.prefix_append x.journal _)

theorem extends_prepareItems : w.Extends w.prepareItems :=
  extends_generateStubs.trans generateStubs_extends_prepareItems

theorem extends_prepareRules : w.Extends w.prepareRules := by
  unfold prepareRules
  have hcompiled := extends_compileRules (w := w)
  generalize w.compileRules = v at hcompiled ⊢
  have hloaded := extends_loadRules (w := { v with phase := .rulesCompiled })
  dsimp only
  generalize Workspace.loadRules _ = x at hloaded ⊢
  have hready : w.Extends x := List.IsPrefix.trans hcompiled hloaded
  exact hready.trans ((List.prefix_append x.journal [.subscribed]).trans (List.prefix_append _ _))

theorem extends_startWatcher : w.Extends w.startWatcher := by
  unfold startWatcher
  split
  · exact extends_tell
  · exact extends_refl

theorem extends_start : w.Extends w.start := by
  unfold start
  split
  · exact extends_tell
  · generalize setUp w.config w.disk = y
    obtain ⟨err | ⟨⟩, d⟩ := y
    · exact List.prefix_append w.journal _
    · dsimp only
      have hready : w.Extends ({ w with disk := d, phase := .foldersReady }.tell
          [quietNote "init" ("folders ready below " ++ w.config.folders.workingDir.text)]) :=
        List.prefix_append w.journal _
      generalize Workspace.tell _ _ = v at hready ⊢
      have hloaded := (extends_prepareItems (w := v)).trans
        (extends_prepareRules.trans extends_startWatcher)
      generalize v.prepareItems.prepareRules.startWatcher = x at hloaded ⊢
      exact List.IsPrefix.trans hready hloaded

theorem extends_perform (op : Operation) : w.Extends (w.perform op) := by
  cases op with
  | start => exact extends_start
  | registryChanged events => exact extends_registryChanged events
  | reload => exact extends_reload
  | rulesChanged changes => exact extends_tell.trans extends_reload
  | dispose => exact extends_dispose

end LiveRules.Workspace
