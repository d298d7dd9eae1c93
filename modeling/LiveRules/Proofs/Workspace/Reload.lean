import LiveRules.Proofs.Compile.Again
import LiveRules.Workspace.Rules

/-!
Reloading rules. What a reload loads does not depend on the units that are left over from older
compilations, nor on anything that the workspace did before; a batch that is refused loads nothing,
and a second reload finds what the first one found.
-/

namespace LiveRules

open Disk

namespace Pass

variable {d d' e e' : Disk} {c : Config}

/-- The outcome of a pass over all rules and the disk after it. -/
def rulesPass (c : Config) (d : Disk) : Except CompileError Outcome × Disk :=
  ((compileRules .builtin c d).outcome, (compileRules .builtin c d).disk)

/-- A pass that comes to an outcome has removed the old units first. -/
theorem rulesPass_cases {o : Outcome} (h : rulesPass c d = (.ok o, d')) :
    ∃ k d₁, removeUnits d c.folders.ruleClasses = (.ok k, d₁) ∧
      compileAfresh c d₁ = (.ok o, d') := by
  rw [rulesPass, compileRules_builtin] at h
  rcases hremove : removeUnits d c.folders.ruleClasses with ⟨err | k, d₁⟩
  · rw [hremove] at h
    cases h
  · rw [hremove] at h
    exact ⟨k, d₁, rfl, h⟩

theorem twins_compileAfresh (h : Twins d e) : Alike (compileAfresh c d) (compileAfresh c e) := by
  rw [compileAfresh, compileAfresh, ruleSources, ruleSources, h.scanTree, h.rulesPath]
  split
  · exact ⟨rfl, h⟩
  · obtain ⟨houtcome, hdisk⟩ := h.compile (Source.scanTree d c.folders.rules) (rulesPath d c).1
      c.folders.ruleClasses
    exact ⟨houtcome, hdisk⟩

/-- Two passes over disks that differ in old units come to the same outcome and leave the same
behind. -/
theorem twins_rulesPass {o p : Outcome} (hd : d.Regular) (he : e.Regular)
    (h : DifferInUnits c.folders.ruleClasses d e) (hpass : rulesPass c d = (.ok o, d'))
    (hpass' : rulesPass c e = (.ok p, e')) : p = o ∧ Twins d' e' := by
  obtain ⟨k, d₁, hremove, hfresh⟩ := rulesPass_cases hpass
  obtain ⟨m, e₁, hremove', hfresh'⟩ := rulesPass_cases hpass'
  obtain ⟨houtcome, hdisk⟩ := twins_compileAfresh (c := c) (h.twins hd he hremove hremove')
  rw [hfresh, hfresh'] at houtcome hdisk
  exact ⟨Except.ok.inj houtcome, hdisk⟩

/-- A pass leaves no unit behind when it reports something. -/
theorem collect_of_diagnostics {o : Outcome} (hd : d.Regular)
    (hpass : rulesPass c d = (.ok o, d')) (ho : o.diagnostics ≠ []) :
    d'.collect c.folders.ruleClasses Naming.artifactExtension = [] := by
  obtain ⟨k, d₁, hremove, hfresh⟩ := rulesPass_cases hpass
  rcases compileAfresh_cases hfresh with ⟨rfl, -⟩ | ⟨hnone, -⟩
  · exact collect_after_removeUnits hd hremove
  · exact absurd hnone ho

/-- A second pass leaves the disk as the first one left it. -/
theorem twins_of_rulesPass_again {d'' : Disk} {o p : Outcome} (hd : d.Regular)
    (hpass : rulesPass c d = (.ok o, d')) (hagain : rulesPass c d' = (.ok p, d''))
    (hplace : KeepsPlace c.folders.ruleClasses d d') (hpacks : KeepsPacks c d d') :
    p.succeeded = o.succeeded ∧ Twins d' d'' := by
  obtain ⟨k, d₁, hremove, hfresh⟩ := rulesPass_cases hpass
  obtain ⟨m, d₃, hremove', hfresh'⟩ := rulesPass_cases hagain
  rcases compileAfresh_cases hfresh with ⟨rfl, -⟩ | ⟨hclean, batch, hcompiles⟩
  · -- nothing was stored, so the second removal takes nothing away
    obtain ⟨h₁, hsame₁, hentries₁⟩ := removeUnits_spec hd hremove
    have hdiffer : DifferInUnits c.folders.ruleClasses d d' := by
      refine ⟨hsame₁.current, fun Q => ?_⟩
      rcases hentries₁ Q with ⟨hQ, -⟩ | ⟨hQ, hunit, content, x, hx⟩
      · exact .inl hQ
      · exact .inr ⟨hunit, by simp [hx], by simp [hQ]⟩
    have hpass' : rulesPass c d = (.ok o, d') := hpass
    obtain ⟨rfl, htwins⟩ := twins_rulesPass hd h₁ hdiffer hpass hagain
    exact ⟨rfl, htwins⟩
  · obtain ⟨hclean', htwins⟩ := twins_of_again hd hremove hcompiles hremove' hfresh' hplace hpacks
    rw [Outcome.succeeded, Outcome.succeeded, hclean, hclean']
    exact ⟨rfl, htwins⟩

theorem regular_of_rulesPass {o : Outcome} (hd : d.Regular)
    (hpass : rulesPass c d = (.ok o, d')) : d'.Regular := by
  obtain ⟨k, d₁, hremove, hfresh⟩ := rulesPass_cases hpass
  have h₁ := (removeUnits_spec hd hremove).1
  rcases compileAfresh_cases hfresh with ⟨rfl, -⟩ | ⟨-, batch, hcompiles⟩
  · exact h₁
  · obtain ⟨places, made, hstored⟩ := hcompiles.storedBatch h₁
    exact hstored.stored.regular

end Pass

namespace Workspace

variable {w v : Workspace}

/-- The contexts of the rules that lie compiled on a disk. -/
def contextsAt (c : Config) (d : Disk) : List Context :=
  (LoadReport.ofFolder d (Pass.loaderPath d c).1 c.folders.ruleClasses c.rulesNamespace
    true).instances.flatMap Context.ofInstance

theorem contextsAt_eq {c : Config} {d e : Disk} (h : Twins d e) :
    contextsAt c e = contextsAt c d := by
  rw [contextsAt, contextsAt, h.loaderPath, h.ofFolder]

theorem contextsAt_of_collect {c : Config} {d : Disk}
    (h : d.collect c.folders.ruleClasses Naming.artifactExtension = []) :
    contextsAt c d = [] := by
  rw [contextsAt, LoadReport.ofFolder_eq, h]
  rfl

/-- What a reload leaves behind is decided by a pass over all rules. -/
structure Reloads (w v : Workspace) : Prop where
  config : v.config = w.config
  tool : v.tool = w.tool
  phase : v.phase ≠ .disposed
  disk : v.disk = (Pass.rulesPass w.config w.disk).2
  rulesOk : ∀ o, (Pass.rulesPass w.config w.disk).1 = .ok o → v.rulesOk = o.succeeded
  contexts : v.engine.current.contexts = contextsAt w.config v.disk

theorem reloads (htool : w.tool = .builtin) (hphase : w.phase ≠ .disposed) :
    Reloads w w.reload := by
  have hresumed : w.phase.resumed ≠ .disposed := by
    cases hp : w.phase <;> simp [Phase.resumed, hp] at hphase ⊢
  unfold reload
  rw [if_neg hphase]
  dsimp only [compileRules, tell, record]
  rw [htool]
  constructor <;>
    cases ho : (Pass.compileRules .builtin w.config w.disk).outcome <;>
    simp [loadRules, record, tell, Engine.activate, Generation.contexts, contextsAt,
      Pass.rulesPass, hresumed, ho, htool]

/-- Rules can be reloaded with the built-in compiler, and no operation on files fails. -/
structure CanReload (w : Workspace) : Prop where
  tool : w.tool = .builtin
  phase : w.phase ≠ .disposed
  regular : w.disk.Regular
  outcome : ∃ o, (Pass.rulesPass w.config w.disk).1 = .ok o

theorem CanReload.pass (h : w.CanReload) :
    ∃ o, Pass.rulesPass w.config w.disk = (.ok o, w.reload.disk) := by
  obtain ⟨o, ho⟩ := h.outcome
  exact ⟨o, Prod.ext ho (reloads h.tool h.phase).disk.symm⟩

theorem CanReload.reload (h : w.CanReload)
    (hagain : ∃ o, (Pass.rulesPass w.config w.reload.disk).1 = .ok o) : w.reload.CanReload := by
  have hw := reloads h.tool h.phase
  obtain ⟨o, ho⟩ := h.pass
  exact ⟨hw.tool.trans h.tool, hw.phase, Pass.regular_of_rulesPass h.regular ho,
    by rw [hw.config]; exact hagain⟩

/-- A workspace with one source, for units in a folder `out` that a path leads to. -/
def withOut (ruleClasses : Path) (units : List (Place × Entry)) : Workspace :=
  let source : Entry := .file (Text.encode "package=\"p\"") false
  .new
    { folders :=
        { items := ⟨"items"⟩, rules := ⟨"src"⟩, ruleClasses, extlib := ⟨"ext"⟩, jar := ⟨"jar"⟩ }
      rulesNamespace := "p"
      itemsNamespace := "q" }
    .builtin false {}
    { entries := [(["src"], .folder), (["src", "A..rule"], source), (["out"], .folder),
        (["out", "p"], .folder)] ++ units }

/-- A unit with one method. -/
def oldUnit : Entry :=
  let method := "[\"m\",\"i\",null,\"changed\",null,null,null,null,null,null,null,false,[]]"
  .file (Text.encode ("[\"p.B\",\"rule\",false,true,null,[" ++ method ++ "]]")) false

theorem canReload_new {c : Config} {d : Disk}
    (hdistinct : (d.entries.map Prod.fst).Nodup)
    (htree : ∀ entry ∈ d.entries, entry.1 ≠ [] ∧ d.entry? entry.1.dropLast = some .folder ∧
      ∀ name ∈ entry.1.getLast?, Path.IsName name)
    (hsound : d.Sound) (houtcome : ∃ o, (Pass.rulesPass c d).1 = .ok o) :
    (new c .builtin false {} d).CanReload :=
  ⟨rfl, by simp [new], ⟨.of_entries hdistinct htree, hsound⟩, houtcome⟩

theorem exists_of_isOk {ε α : Type} {x : Except ε α} (h : x.isOk = true) : ∃ o, x = .ok o := by
  cases x with
  | error e => cases h
  | ok o => exact ⟨o, rfl⟩

/-- Reloading forgets what was compiled before. Workspaces over disks that differ in old units
only come to the same contexts; a batch with diagnostics leaves no context at all; and a second
reload leads to the contexts of the first one, unless the first one has led the path of the units
to a folder that held some, or has brought a pack within reach. -/
theorem reload_forgets (hw : w.CanReload) (hv : v.CanReload) (hconfig : v.config = w.config)
    (hdiffer : DifferInUnits w.config.folders.ruleClasses w.disk v.disk) :
    (v.reload.rulesOk = w.reload.rulesOk ∧
      v.reload.engine.current.contexts = w.reload.engine.current.contexts) ∧
    (∀ o, (Pass.rulesPass w.config w.disk).1 = .ok o → o.diagnostics ≠ [] →
      w.reload.engine.current.contexts = []) ∧
    (w.reload.CanReload →
      Pass.KeepsPlace w.config.folders.ruleClasses w.disk w.reload.disk →
      Pass.KeepsPacks w.config w.disk w.reload.disk →
      w.reload.reload.rulesOk = w.reload.rulesOk ∧
        w.reload.reload.engine.current.contexts = w.reload.engine.current.contexts) := by
  have hfirst := reloads hw.tool hw.phase
  obtain ⟨o, ho⟩ := hw.pass
  refine ⟨?_, ?_, ?_⟩
  · have hsecond := reloads hv.tool hv.phase
    obtain ⟨p, hp⟩ := hv.pass
    rw [hconfig] at hp
    obtain ⟨rfl, htwins⟩ := Pass.twins_rulesPass hw.regular hv.regular hdiffer ho hp
    constructor
    · rw [hfirst.rulesOk p (congrArg Prod.fst ho)]
      exact hsecond.rulesOk p (by rw [hconfig, hp])
    · rw [hfirst.contexts, hsecond.contexts, hconfig, contextsAt_eq htwins]
  · intro p hp hne
    rw [ho] at hp
    cases hp
    rw [hfirst.contexts, contextsAt_of_collect (Pass.collect_of_diagnostics hw.regular ho hne)]
  · intro hagain hplace hpacks
    have hsecond := reloads hagain.tool hagain.phase
    obtain ⟨p, hp⟩ := hagain.pass
    rw [hfirst.config] at hp
    obtain ⟨hsucceeded, htwins⟩ :=
      Pass.twins_of_rulesPass_again hw.regular ho hp hplace hpacks
    constructor
    · rw [hfirst.rulesOk o (congrArg Prod.fst ho), ← hsucceeded]
      exact hsecond.rulesOk p (by rw [hfirst.config, hp])
    · rw [hfirst.contexts, hsecond.contexts, hfirst.config, contextsAt_eq htwins]

/-- A path through a missing folder leads to the units of another folder only once a pass has made
that folder: the first reload loads an old unit, the second one removes it. -/
theorem reload_twice_differs :
    (withOut ⟨"new/../out"⟩ [(["out", "p", "B.unit"], oldUnit)]).CanReload ∧
    (withOut ⟨"new/../out"⟩ [(["out", "p", "B.unit"], oldUnit)]).reload.CanReload ∧
    (withOut ⟨"new/../out"⟩
        [(["out", "p", "B.unit"], oldUnit)]).reload.reload.engine.current.contexts ≠
      (withOut ⟨"new/../out"⟩
        [(["out", "p", "B.unit"], oldUnit)]).reload.engine.current.contexts := by
  have hfirst : (withOut ⟨"new/../out"⟩ [(["out", "p", "B.unit"], oldUnit)]).CanReload :=
    canReload_new (by decide +kernel) (by decide +kernel) (fun _ _ _ => rfl)
      (exists_of_isOk (by decide +kernel))
  refine ⟨hfirst, hfirst.reload (exists_of_isOk (by decide +kernel)), fun h => ?_⟩
  exact absurd (congrArg List.length h) (by decide +kernel)

/-- With a unit left over and without one, a workspace reloads to the same contexts, and does so
again. -/
theorem reload_forgets_leftover :
    (withOut ⟨"out"⟩ []).reload.engine.current.contexts =
        (withOut ⟨"out"⟩ [(["out", "p", "B.unit"], oldUnit)]).reload.engine.current.contexts ∧
      (withOut ⟨"out"⟩ [(["out", "p", "B.unit"], oldUnit)]).reload.reload.engine.current.contexts =
        (withOut ⟨"out"⟩ [(["out", "p", "B.unit"], oldUnit)]).reload.engine.current.contexts := by
  have hleft : (withOut ⟨"out"⟩ [(["out", "p", "B.unit"], oldUnit)]).CanReload :=
    canReload_new (by decide +kernel) (by decide +kernel) (fun _ _ _ => rfl)
      (exists_of_isOk (by decide +kernel))
  have hclean : (withOut ⟨"out"⟩ []).CanReload :=
    canReload_new (by decide +kernel) (by decide +kernel) (fun _ _ _ => rfl)
      (exists_of_isOk (by decide +kernel))
  have hdiffer : DifferInUnits ⟨"out"⟩ (withOut ⟨"out"⟩ [(["out", "p", "B.unit"], oldUnit)]).disk
      (withOut ⟨"out"⟩ []).disk := by
    refine ⟨rfl, fun Q => ?_⟩
    by_cases hQ : Q = ["out", "p", "B.unit"]
    · subst hQ
      exact .inr ⟨⟨["out"], ["p", "B.unit"], by decide +kernel,
        ⟨by decide, by decide +kernel, by decide +kernel⟩, rfl⟩, by decide +kernel,
        by decide +kernel⟩
    · refine .inl ?_
      by_cases hroot : Q = []
      · rw [hroot]
        rfl
      · simp [lookup_entries hroot, withOut, new, lookup, Ne.symm hQ]
  have hagain := hleft.reload (exists_of_isOk (by decide +kernel))
  obtain ⟨hsame, -, hsecond⟩ := reload_forgets hleft hclean rfl hdiffer
  refine ⟨hsame.2, (hsecond hagain ?_ ?_).2⟩
  · intro F names hF _ _
    have hout : (withOut ⟨"out"⟩ [(["out", "p", "B.unit"], oldUnit)]).reload.disk.place?
        ⟨"out"⟩ = .ok ["out"] := by decide +kernel
    rw [show (withOut ⟨"out"⟩ [(["out", "p", "B.unit"], oldUnit)]).config.folders.ruleClasses =
      ⟨"out"⟩ from rfl, hout] at hF
    cases hF
    decide +kernel
  · intro p hp pack hpack
    have hnone : (Pack.read (withOut ⟨"out"⟩ [(["out", "p", "B.unit"], oldUnit)]).reload.disk
        p).isOk = false := by
      rcases List.mem_cons.mp hp with rfl | hp
      · decide +kernel
      · rw [List.mem_singleton.mp hp]
        decide +kernel
    rw [hpack] at hnone
    cases hnone

end Workspace

end LiveRules
