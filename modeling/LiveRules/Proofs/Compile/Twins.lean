import LiveRules.Compile.Pass
import LiveRules.Proofs.Load.Alone
import LiveRules.Proofs.Files.Twins

/-!
Compiling and loading on disks that hold the same: both give the same outcome, store the same
units and load the same instances.
-/

namespace LiveRules.Disk.Twins

variable {d e : Disk}

/-! ### Units and packs -/

theorem readArtifact (h : Twins d e) (p : Path) : Artifact.read e p = Artifact.read d p := by
  rw [Artifact.read, Artifact.read, h.readText]

theorem readPack (h : Twins d e) (p : Path) : Pack.read e p = Pack.read d p := by
  rw [Pack.read, Pack.read, h.readText]

theorem writeArtifact (h : Twins d e) (a : Artifact) (root : Path) :
    Alike (a.write d root) (a.write e root) := by
  unfold Artifact.write
  dsimp only
  obtain ⟨r, d₁, e₁, hd, he, h₁⟩ :=
    (h.makeFolders ((Naming.artifactPath root a.identifier).parent?.getD ⟨""⟩)).split
  rw [hd, he]
  cases r with
  | error err => exact ⟨rfl, h₁⟩
  | ok x =>
    obtain ⟨s, d₂, e₂, hd₂, he₂, h₂⟩ :=
      (h₁.write (Naming.artifactPath root a.identifier) (Text.encode a.text)).split
    dsimp only
    rw [hd₂, he₂]
    cases s <;> exact ⟨rfl, h₂⟩

/-! ### Class paths -/

theorem find? (h : Twins d e) (identifier : String) (cp : ClassPath) :
    cp.find? e identifier = cp.find? d identifier := by
  induction cp with
  | nil => rfl
  | cons entry rest ih =>
    have hentry : entry.find? e identifier = entry.find? d identifier := by
      cases entry with
      | folder path => simp only [ClassPath.Entry.find?, h.isFile, h.readArtifact]
      | pack path content => rfl
    rw [ClassPath.find?, ClassPath.find?, hentry, ih]

theorem contains (h : Twins d e) (cp : ClassPath) : cp.contains e = cp.contains d := by
  funext identifier
  rw [ClassPath.contains, ClassPath.contains, h.find?]

theorem resolve (h : Twins d e) (cp : ClassPath) : cp.resolve e = cp.resolve d := by
  funext identifier
  rw [ClassPath.resolve, ClassPath.resolve, h.find?]

theorem items (h : Twins d e) (cp : ClassPath) : cp.items e = cp.items d := by
  rw [ClassPath.items, ClassPath.items]
  refine congrArg (List.flatMap · cp) (funext fun entry => ?_)
  cases entry with
  | folder path => simp only [ClassPath.Entry.items, ClassPath.unitsOf, h.collect, h.readArtifact]
  | pack path content => rfl

theorem unitBound (h : Twins d e) (cp : ClassPath) : cp.unitBound e = cp.unitBound d := by
  rw [ClassPath.unitBound, ClassPath.unitBound, h.length_entries]

theorem addRuntime (h : Twins d e) (c : Config) (x : Pass.Assembled) :
    Pass.addRuntime e c x = Pass.addRuntime d c x := by
  rw [Pass.addRuntime, Pass.addRuntime, h.readPack]

theorem addItems (h : Twins d e) (c : Config) (x : Pass.Assembled) :
    Pass.addItems e c x = Pass.addItems d c x := by
  rw [Pass.addItems, Pass.addItems, h.isThere, h.readPack]

theorem addExtlibs (h : Twins d e) (c : Config) (x : Pass.Assembled) :
    Pass.addExtlibs e c x = Pass.addExtlibs d c x := by
  have hone : Pass.addExtlib e = Pass.addExtlib d := by
    funext x p
    rw [Pass.addExtlib, Pass.addExtlib, h.readPack]
  rw [Pass.addExtlibs, Pass.addExtlibs, h.listed, hone]

theorem rulesPath (h : Twins d e) (c : Config) : Pass.rulesPath e c = Pass.rulesPath d c := by
  rw [Pass.rulesPath, Pass.rulesPath, h.addItems, h.addRuntime, h.addExtlibs]

theorem loaderPath (h : Twins d e) (c : Config) : Pass.loaderPath e c = Pass.loaderPath d c := by
  rw [Pass.loaderPath, Pass.loaderPath, h.addItems, h.addRuntime, h.addExtlibs]

/-! ### Compiling -/

theorem scanTree (h : Twins d e) (folder : Path) :
    Source.scanTree e folder = Source.scanTree d folder := by
  rw [Source.scanTree, Source.scanTree, h.collect]
  refine List.map_congr_left fun p _ => ?_
  simp only [Source.scan, Source.identifierOf, ContentHash.ofFile, h.readText, h.read, h.isThere]

theorem checkAll (h : Twins d e) (sources : List Source) :
    Builtin.checkAll e sources = Builtin.checkAll d sources := by
  induction sources with
  | nil => rfl
  | cons s rest ih =>
    rw [Builtin.checkAll, Builtin.checkAll, ih, Check.ofPath, Check.ofPath, h.readText]

theorem scope (h : Twins d e) (cp : ClassPath) (batch : List CheckedUnit) :
    Link.Scope.of e cp batch = Link.Scope.of d cp batch := by
  rw [Link.Scope.of, Link.Scope.of, h.contains, h.items]

theorem writeAll (h : Twins d e) (root : Path) (units : List Artifact) :
    Alike (Builtin.writeAll root units d) (Builtin.writeAll root units e) := by
  induction units generalizing d e with
  | nil => exact ⟨rfl, h⟩
  | cons a rest ih =>
    rw [Builtin.writeAll, Builtin.writeAll]
    obtain ⟨r, d₁, e₁, hd, he, h₁⟩ := (h.writeArtifact a root).split
    rw [hd, he]
    cases r with
    | error err => exact ⟨rfl, h₁⟩
    | ok path =>
      obtain ⟨s, d₂, e₂, hd₂, he₂, h₂⟩ := (ih h₁).split
      dsimp only
      rw [hd₂, he₂]
      cases s <;> exact ⟨rfl, h₂⟩

theorem compile (h : Twins d e) (sources : List Source) (cp : ClassPath) (root : Path) :
    (Builtin.compile e sources cp root).outcome = (Builtin.compile d sources cp root).outcome ∧
      Twins (Builtin.compile d sources cp root).disk (Builtin.compile e sources cp root).disk := by
  simp only [Builtin.compile, h.checkAll, h.scope]
  split
  · obtain ⟨r, d₁, e₁, hd, he, h₁⟩ := (h.makeFolders root).split
    rw [hd, he]
    cases r with
    | error err => exact ⟨rfl, h₁⟩
    | ok x =>
      obtain ⟨s, d₂, e₂, hd₂, he₂, h₂⟩ := (h₁.writeAll root _).split
      dsimp only
      rw [hd₂, he₂]
      cases s <;> exact ⟨rfl, h₂⟩
  · exact ⟨rfl, h⟩

/-! ### Loading -/

theorem ofFolder (h : Twins d e) (cp : ClassPath) (folder : Path) (base : String)
    (instantiates : Bool) : LoadReport.ofFolder e cp folder base instantiates =
      LoadReport.ofFolder d cp folder base instantiates := by
  have hone : LoadReport.ofPath e cp base instantiates =
      LoadReport.ofPath d cp base instantiates := by
    funext p
    simp only [LoadReport.ofPath_eq, LoadReport.resolveAt, LoadReport.ofUnit_eq,
      ClassPath.instantiate_eq, h.resolve, h.unitBound]
  rw [LoadReport.ofFolder_eq, LoadReport.ofFolder_eq, h.collect, hone]

end LiveRules.Disk.Twins
