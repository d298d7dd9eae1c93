import LiveRules.Proofs.Workspace.Loaded

/-!
What a reload loads. Every unit that was compiled inside the namespace is loaded from the path that
it was stored at, and no unit is active twice, as long as the namespace comes up first in these
paths where packages begin.
-/

namespace LiveRules.Workspace

open Disk

variable {w : Workspace} {xs : List Declaration}

/-- A place that a folder of units has from the start is the one it has after a reload. -/
theorem keepsPlace_heir : Pass.KeepsPlace (heir "l.B" "l.B").config.folders.ruleClasses
    (heir "l.B" "l.B").disk (heir "l.B" "l.B").reload.disk := by
  intro F names hF _ _
  have hout : (heir "l.B" "l.B").reload.disk.place? ⟨"out"⟩ = .ok ["out"] := by decide +kernel
  rw [show (heir "l.B" "l.B").config.folders.ruleClasses = ⟨"out"⟩ from rfl, hout] at hF
  cases hF
  decide +kernel

/-- A workspace with a source that inherits a rule is reloaded, and its source lies in the
namespace. -/
theorem exists_spelled_heir : (heir "l.B" "l.B").CanReload ∧
    (heir "l.B" "l.B").reload.rulesOk = true ∧ ∃ x,
      List.Forall₂ (Source.Declares (heir "l.B" "l.B").disk)
        (Pass.ruleSources (heir "l.B" "l.B").disk (heir "l.B" "l.B").config) [x] ∧
      (heir "l.B" "l.B").declared [x] = [("A", x)] ∧ IsBare (some "l.B") x ∧
      Spelled (heir "l.B" "l.B").config [("A", x)] := by
  have hlone : IsLone (heir "l.B" "l.B") (some "l.B") :=
    ⟨by decide +kernel, by decide +kernel, by decide +kernel⟩
  obtain ⟨x, hxs, hdeclared, hx⟩ := hlone.exists_declared
  exact ⟨canReload_heir (by decide +kernel), by decide +kernel, x, hxs, hdeclared, hx,
    hx.spelled rfl (by decide) begins_out⟩

/-- Everything that is compiled inside the namespace is loaded. The units that a reload stores are
what the sources mean, each is resolved by the path of its file, and they are the types that the
loader reports, in the order of the paths; whatever fails, fails for the bases of a unit. -/
theorem reload_resolves (hw : w.CanReload) (haccepted : w.reload.rulesOk = true)
    (hxs : List.Forall₂ (Source.Declares w.disk) (Pass.ruleSources w.disk w.config) xs)
    (hspelled : Spelled w.config (w.declared xs))
    (hplace : Pass.KeepsPlace w.config.folders.ruleClasses w.disk w.reload.disk) : ∃ units ordered,
      List.Forall₂ (fun y a => Means (declaring (w.declared xs)
        (archives (Pass.rulesPath w.disk w.config).1)) y.1 y.2 a) (w.declared xs) units ∧
      (∀ a ∈ units, LoadReport.resolveAt w.reload.disk
        (Pass.loaderPath w.reload.disk w.config).1 w.config.rulesNamespace
        (Naming.artifactPath w.config.folders.ruleClasses a.identifier) = .ok a) ∧
      ordered.Perm units ∧ w.reload.loadReport.types = ordered ∧
      (w.reload.disk.collect w.config.folders.ruleClasses Naming.artifactExtension =
        ordered.map fun a => Naming.artifactPath w.config.folders.ruleClasses a.identifier) ∧
      ∀ x ∈ w.reload.loadReport.failed, x.2.IsOfBases := by
  obtain ⟨units, hmeans, hstored⟩ := reload_stores hw haccepted hxs hspelled.toStorable hplace
  have hresolve : ∀ a ∈ units, LoadReport.resolveAt w.reload.disk
      (Pass.loaderPath w.reload.disk w.config).1 w.config.rulesNamespace
      (Naming.artifactPath w.config.folders.ruleClasses a.identifier) = .ok a := by
    intro a ha
    obtain ⟨y, hy, hya⟩ := Builtin.exists_of_forall₂_right hmeans a ha
    have hproper := (isNamed_of_declared hw.regular hxs y hy).proper
    exact hstored.resolveAt ha (hspelled.derive hy hproper hya)
  obtain ⟨ordered, hperm, -, hpaths⟩ := exists_ordered w.config.folders.ruleClasses units
  have hcollect := hstored.collect.trans hpaths
  have hconfig := (reloads hw.tool hw.phase).config
  obtain ⟨htypes, hfailed⟩ := LoadReport.ofFolder_of_resolveAt hcollect
    fun a ha => hresolve a (hperm.mem_iff.mp ha)
  rw [← hconfig] at htypes hfailed
  exact ⟨units, ordered, hmeans, hresolve, hperm, htypes, hcollect, hfailed⟩

/-- The one unit of a source that inherits a rule is found at its path. -/
theorem reload_resolves_heir : ∃ a, IsBareUnit (some "l.B") a ∧
    LoadReport.resolveAt (heir "l.B" "l.B").reload.disk
      (Pass.loaderPath (heir "l.B" "l.B").reload.disk (heir "l.B" "l.B").config).1 "p"
      ⟨"out/p/A.unit"⟩ = .ok a ∧
    (heir "l.B" "l.B").reload.loadReport.types = [a] := by
  obtain ⟨hreload, haccepted, x, hxs, hdeclared, hx, hspelled⟩ := exists_spelled_heir
  obtain ⟨units, ordered, hmeans, hresolve, hperm, htypes, -, -⟩ :=
    reload_resolves hreload haccepted hxs (by rwa [hdeclared]) keepsPlace_heir
  rw [hdeclared] at hmeans
  obtain ⟨a, rest, ha, hrest, rfl⟩ := List.forall₂_cons_left_iff.mp hmeans
  obtain rfl := List.forall₂_nil_left_iff.mp hrest
  have hunit := hx.unit ha
  have hat := hresolve a (List.mem_singleton_self a)
  rw [hunit.identifier] at hat
  exact ⟨a, hunit, hat, htypes.trans (List.perm_singleton.mp hperm)⟩

/-- The name of the folder of units is the namespace itself. -/
def selfNamed : Workspace := lone ⟨"p"⟩ "package=\"p\"" []

/-- A unit is looked for in vain when the path of the folder of units has the namespace in it. -/
theorem reload_misses : selfNamed.CanReload ∧ selfNamed.reload.rulesOk = true ∧
    IsLone selfNamed none ∧ selfNamed.reload.loadReport.failed =
      [(⟨"p/p/A.unit"⟩, .notFound "p.p.A")] :=
  ⟨canReload_new (by decide +kernel) (by decide +kernel) (fun _ _ _ => rfl)
    (exists_of_isOk (by decide +kernel)), by decide +kernel,
    ⟨by decide +kernel, by decide +kernel, by decide +kernel⟩, by decide +kernel⟩

end LiveRules.Workspace
