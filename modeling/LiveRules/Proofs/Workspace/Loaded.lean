import LiveRules.Proofs.Load.Reports
import LiveRules.Proofs.Workspace.Meaning

/-!
Loading what was stored. Where the namespace of the rules comes up first in the path of a unit, the
package of the unit begins; then the loader finds the unit by its path, or finds nothing. So all
units inside the namespace are loaded, and no rule is active twice.
-/

namespace LiveRules

open Disk

/-- Declarations whose units can be stored below a folder and read again. -/
structure Storable (c : Config) (declared : List (String × Declaration)) : Prop where
  root : c.folders.ruleClasses.text ≠ ""
  dotted : ∀ y ∈ declared, ∀ package ∈ y.2.package?,
    Naming.IsDotted (package.text ++ "." ++ y.1)
  thresholds : ∀ y ∈ declared, ∀ r ∈ y.2.rules, r.bounds.ComeBack

/-- Declarations and a folder of units below which the namespace comes up first, if it does, where
packages begin. -/
structure Legible (c : Config) (declared : List (String × Declaration)) : Prop
    extends Storable c declared where
  begins : ∀ y ∈ declared, ∀ package ∈ y.2.package?,
    let front := (Naming.splitIdentifier (package.text ++ "." ++ y.1)).1
    let folder := Naming.folder c.folders.ruleClasses front
    (c.rulesNamespace.toList <+: front.toList ∧ Naming.Begins c.rulesNamespace front folder) ∨
      ¬c.rulesNamespace.toList <:+: Naming.dotted folder

/-- Declarations inside the namespace, and a folder of units below which it comes up first where
their packages begin. -/
structure Spelled (c : Config) (declared : List (String × Declaration)) : Prop
    extends Storable c declared where
  within : ∀ y ∈ declared, ∀ package ∈ y.2.package?,
    Naming.IsWithin c.rulesNamespace package.text
  begins : ∀ y ∈ declared, ∀ package ∈ y.2.package?,
    let front := (Naming.splitIdentifier (package.text ++ "." ++ y.1)).1
    Naming.Begins c.rulesNamespace front (Naming.folder c.folders.ruleClasses front)

section Unit

variable {c : Config} {declared : List (String × Declaration)} {y : String × Declaration}
variable {itemClass? : String → Option String} {a : Artifact}

theorem Storable.identifier (h : Storable c declared) (hy : y ∈ declared)
    (hproper : y.2.IsProper y.1) (ha : Means itemClass? y.1 y.2 a) : ∃ package ∈ y.2.package?,
      a.identifier = package.text ++ "." ++ y.1 ∧ Naming.IsDotted a.identifier := by
  obtain ⟨package, hpackage, -⟩ := hproper.package
  have hidentifier : a.identifier = package.text ++ "." ++ y.1 := by
    rw [ha.identifier, Declaration.identifier, hpackage]
    rfl
  exact ⟨package, hpackage, hidentifier, hidentifier ▸ h.dotted y hy package hpackage⟩

theorem Storable.comesBack (h : Storable c declared) (hy : y ∈ declared)
    (ha : Means itemClass? y.1 y.2 a) : a.ComesBack := by
  intro m hm
  obtain ⟨r, hr, hcarries⟩ := Builtin.exists_of_forall₂_right ha.rules m hm
  rw [hcarries.bounds]
  exact h.thresholds y hy r hr

/-- What is read off the path of a unit is its identifier, or nothing. -/
theorem Legible.derive (h : Legible c declared) (hy : y ∈ declared) (hproper : y.2.IsProper y.1)
    (ha : Means itemClass? y.1 y.2 a) {identifier : String}
    (hderive : Naming.derive (Naming.artifactPath c.folders.ruleClasses a.identifier)
      c.rulesNamespace = .ok identifier) : identifier = a.identifier := by
  obtain ⟨package, hpackage, hidentifier, hdotted⟩ := h.identifier hy hproper ha
  obtain ⟨front, last, hsplit, heq, hpoint, -⟩ := Naming.splitIdentifier_cases package.text y.1
  have hbegins := h.begins y hy package hpackage
  rw [hsplit] at hbegins
  rw [hidentifier, heq] at hdotted hderive ⊢
  rcases hbegins with ⟨hword, hbegins⟩ | hnone
  · rw [hdotted.derive_artifactPath hpoint hword hbegins] at hderive
    exact (Except.ok.inj hderive).symm
  · simp [hdotted.derive_eq hpoint, Naming.fromFirst?_eq_none_iff.mpr hnone] at hderive

/-- The identifier of a unit inside the namespace is read off the path of its file. -/
theorem Spelled.derive (h : Spelled c declared) (hy : y ∈ declared)
    (hproper : y.2.IsProper y.1) (ha : Means itemClass? y.1 y.2 a) :
    Naming.derive (Naming.artifactPath c.folders.ruleClasses a.identifier) c.rulesNamespace =
      .ok a.identifier := by
  obtain ⟨package, hpackage, hidentifier, hdotted⟩ := h.identifier hy hproper ha
  obtain ⟨front, last, hsplit, heq, hpoint, hfront⟩ :=
    Naming.splitIdentifier_cases package.text y.1
  have hbegins := h.begins y hy package hpackage
  rw [hsplit] at hbegins
  rw [hidentifier, heq] at hdotted ⊢
  exact hdotted.derive_artifactPath hpoint
    ((h.within y hy package hpackage).isPrefix.trans hfront) hbegins

end Unit

namespace Workspace.IsBare

variable {c : Config} {base : Option String} {x : Declaration}

theorem package_text (h : IsBare base x) : ∀ package ∈ x.package?, package.text = "p" := by
  intro package hp
  have hpackage := h.package
  rwa [hp, Option.map_some, Option.some.injEq] at hpackage

theorem storable (h : IsBare base x) (hroot : c.folders.ruleClasses.text ≠ "") :
    Storable c [("A", x)] := by
  refine ⟨hroot, ?_, ?_⟩ <;> intro y hy <;> obtain rfl := List.mem_singleton.mp hy
  · intro package hp
    rw [h.package_text package hp]
    exact show Naming.IsDotted ("p" ++ "." ++ "A") by decide
  · simp [h.rules]

theorem spelled (h : IsBare base x) (hnamespace : c.rulesNamespace = "p")
    (hroot : c.folders.ruleClasses.text ≠ "")
    (hbegins : Naming.Begins "p" "p" (Naming.folder c.folders.ruleClasses "p")) :
    Spelled c [("A", x)] := by
  have hsplit : Naming.splitIdentifier ("p" ++ "." ++ "A") = ("p", "A") := by decide
  refine ⟨h.storable hroot, ?_, ?_⟩ <;> intro y hy package hp <;>
    obtain rfl := List.mem_singleton.mp hy <;> rw [h.package_text package hp, hnamespace]
  · exact .inl rfl
  · simpa only [hsplit] using hbegins

end Workspace.IsBare

/-- Units lie below a folder, and no others. -/
def IsStored (d : Disk) (root : Path) (units : List Artifact) : Prop :=
  (units = [] ∧ d.collect root Naming.artifactExtension = []) ∨ ∃ F, Holds d root F units

namespace IsStored

variable {d : Disk} {root : Path} {units : List Artifact} {a : Artifact}

theorem distinct (h : IsStored d root units) : (units.map (·.identifier)).Nodup := by
  rcases h with ⟨rfl, -⟩ | ⟨F, h⟩
  · exact List.nodup_nil
  · exact h.distinct

theorem collect (h : IsStored d root units) : d.collect root Naming.artifactExtension =
    Path.sort (units.map fun a => Naming.artifactPath root a.identifier) := by
  rcases h with ⟨rfl, hnone⟩ | ⟨F, h⟩
  · exact hnone
  · exact h.collect_eq

/-- A path that leads to the identifier of a unit leads to the unit, for the loader looks it up in
this folder first. -/
theorem resolveAt {c : Config} {path : Path} (h : IsStored d c.folders.ruleClasses units)
    (ha : a ∈ units) (hderive : Naming.derive path c.rulesNamespace = .ok a.identifier) :
    LoadReport.resolveAt d (Pass.loaderPath d c).1 c.rulesNamespace path = .ok a := by
  rcases h with ⟨rfl, -⟩ | ⟨F, h⟩
  · cases ha
  · simp only [LoadReport.resolveAt, hderive, Pass.fst_loaderPath h.regular.sound,
      ClassPath.resolve, ClassPath.find?, h.find?_of_mem ha]

end IsStored

namespace Pass

variable {d d' : Disk} {c : Config} {o : Outcome} {xs : List Declaration}

/-- What a pass stores is what its sources mean. -/
theorem rulesPass_stores (hd : d.Regular) (hpass : rulesPass c d = (.ok o, d'))
    (hclean : o.diagnostics = [])
    (hxs : List.Forall₂ (Source.Declares d) (ruleSources d c) xs)
    (hnamed : ∀ y ∈ declarations (ruleSources d c) xs, y.2.IsProper y.1)
    (hstorable : Storable c (declarations (ruleSources d c) xs))
    (hplace : KeepsPlace c.folders.ruleClasses d d') : ∃ units,
      List.Forall₂ (fun y a => Means (declaring (declarations (ruleSources d c) xs)
        (archives (rulesPath d c).1)) y.1 y.2 a) (declarations (ruleSources d c) xs) units ∧
      IsStored d' c.folders.ruleClasses units := by
  rcases rulesPass_accepted hd hpass hclean hxs with
    ⟨hempty, hnone⟩ | ⟨k, d₁, batch, hremove, hcompiles, hbatch⟩
  · exact ⟨[], by simp [declarations, hempty], .inl ⟨rfl, hnone⟩⟩
  · obtain ⟨h₁, -, -⟩ := removeUnits_spec hd hremove
    have hmeans := means_linkedUnits (c := c) h₁ hxs hbatch
    rw [rulesPath_of_removeUnits hd hremove] at hmeans
    have hof := Builtin.exists_of_forall₂_right hmeans
    refine ⟨linkedUnits c d₁ batch, hmeans, .inr ?_⟩
    refine hcompiles.holds hd hremove hplace hstorable.root (fun a ha => ?_) fun a ha => ?_
    · obtain ⟨y, hy, hya⟩ := hof a ha
      obtain ⟨-, -, -, hdotted⟩ := hstorable.identifier hy (hnamed y hy) hya
      exact hdotted
    · obtain ⟨y, hy, hya⟩ := hof a ha
      exact hstorable.comesBack hy hya

end Pass

namespace Workspace

variable {w : Workspace} {xs : List Declaration}

/-- What the loader reports about the rules that lie compiled on the disk of a workspace. -/
def loadReport (w : Workspace) : LoadReport :=
  LoadReport.ofFolder w.disk (Pass.loaderPath w.disk w.config).1 w.config.folders.ruleClasses
    w.config.rulesNamespace true

/-- A reload that accepts its sources stores what they mean. -/
theorem reload_stores (hw : w.CanReload) (haccepted : w.reload.rulesOk = true)
    (hxs : List.Forall₂ (Source.Declares w.disk) (Pass.ruleSources w.disk w.config) xs)
    (hstorable : Storable w.config (w.declared xs))
    (hplace : Pass.KeepsPlace w.config.folders.ruleClasses w.disk w.reload.disk) : ∃ units,
      List.Forall₂ (fun y a => Means (declaring (w.declared xs)
        (archives (Pass.rulesPath w.disk w.config).1)) y.1 y.2 a) (w.declared xs) units ∧
      IsStored w.reload.disk w.config.folders.ruleClasses units := by
  obtain ⟨o, ho⟩ := hw.pass
  have hclean : o.diagnostics = [] := by
    have hok := (reloads hw.tool hw.phase).rulesOk o (congrArg Prod.fst ho)
    rw [haccepted, Outcome.succeeded] at hok
    simpa using hok.symm
  exact Pass.rulesPass_stores hw.regular ho hclean hxs
    (fun y hy => (isNamed_of_declared hw.regular hxs y hy).proper) hstorable hplace

end Workspace

end LiveRules
