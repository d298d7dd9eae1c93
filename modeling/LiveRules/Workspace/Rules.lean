import LiveRules.Load.Report
import LiveRules.Workspace.Basic

/-!
Keeping the rules of a workspace in step: all rules are compiled anew, loaded into a new generation
and handed to the engine.
-/

namespace LiveRules.Workspace

/-- Compiles all rules and remembers whether that succeeded. -/
def compileRules (w : Workspace) : Workspace :=
  let x := Pass.compileRules w.tool w.config w.disk
  let w := { w with disk := x.disk }.tell x.notes
  match x.outcome with
  | .ok o => { w with rulesOk := o.succeeded }
  | .error e =>
    { w with rulesOk := false }.tell [note "error" ("rules compilation failed: " ++ e.fullText)]

def loadNote (r : LoadReport) : Note :=
  note "load" (toString r.types.length ++ " type(s), " ++ toString r.instances.length ++
    " instance(s), " ++ toString r.skipped.length ++ " skipped, " ++ toString r.failed.length ++
    " failed")

/-- Loads the compiled rules into a new generation and makes it the engine's. -/
def loadRules (w : Workspace) : Workspace :=
  let (cp, notes) := Pass.loaderPath w.disk w.config
  let report :=
    LoadReport.ofFolder w.disk cp w.config.folders.ruleClasses w.config.rulesNamespace true
  let generation := w.generation + 1
  let (engine, activated) := w.engine.activate ⟨generation, report.instances⟩
  { w with generation, engine }.record [.loaded] |>.tell
    (notes ++ report.notes ++ [loadNote report] ++ activated)

/-- The number of contexts that are active. -/
def activeRules (w : Workspace) : Nat := w.engine.current.contexts.length

def reloadStatus (w : Workspace) : Output :=
  let active := "generation " ++ toString w.generation ++ ": " ++ toString w.activeRules ++
    " rule(s) active"
  if w.rulesOk then .success active else .failure "rules failed to compile" active

/-- Compiles and loads all rules, the engine being empty in between. -/
def reload (w : Workspace) : Workspace :=
  if w.phase = .disposed then w
  else
    let resumed := w.phase.resumed
    let w := { w with phase := .reloading }.tell
      [note "reload" ("reloading rules from " ++ w.config.folders.rules.text)]
    let w := w.compileRules
    let w := { w with engine := w.engine.reset }.record [.unsubscribed]
    let w := w.loadRules.record [.subscribed]
    { w.record [.told w.reloadStatus] with phase := resumed }

end LiveRules.Workspace
