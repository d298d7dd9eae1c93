import LiveRules.Proofs.Compile.Meaning

/-!
What the compiler writes. An accepted batch has one artifact per source: identifiers that differ
spell paths that differ, a search finds each of them, and each is read as the unit of its source,
as long as no segment of an identifier is empty.
-/

namespace LiveRules.Builtin

open Disk

variable {d d' : Disk} {root : Path} {sources : List Source} {cp : ClassPath} {o : Outcome}
variable {units : List Artifact} {written : List Path}

/-- The paths that are written are those that the identifiers spell. -/
theorem written_of_writeAll (hw : writeAll root units d = (.ok written, d')) :
    written = units.map fun a => Naming.artifactPath root a.identifier := by
  induction units generalizing d written with
  | nil => exact (Except.ok.inj (Prod.mk.inj hw).1).symm
  | cons a units ih =>
    rw [writeAll] at hw
    rcases ha : a.write d root with ⟨err | path, d₁⟩
    · simp [ha] at hw
    · obtain rfl := Artifact.path_of_write ha
      rw [ha] at hw
      rcases hrest : writeAll root units d₁ with ⟨err | paths, d₂⟩
      · simp [hrest] at hw
      · simp only [hrest, Prod.mk.injEq, Except.ok.injEq] at hw
        obtain ⟨rfl, rfl⟩ := hw
        rw [ih hrest, List.map_cons]

/-- A compilation without diagnostics has checked and linked its sources and stored all units. -/
theorem compile_accepted (hok : (compile d sources cp root).outcome = .ok o)
    (hclean : o.diagnostics = []) : ∃ batch made,
      checkAll d sources = (batch, []) ∧ Link.problems (.of d cp batch) batch = [] ∧
      d.makeFolders root = (.ok (), made) ∧
      writeAll root (batch.map (Link.linked (.of d cp batch))) made =
        (.ok o.written, (compile d sources cp root).disk) := by
  obtain ⟨batch, found, hcheck, hcases⟩ := compile_cases d sources cp root
  rcases hcases with ⟨hne, houtcome, -⟩ | ⟨hnil, ⟨err, houtcome⟩ | ⟨written, made, stored, hmade,
    hwrite, houtcome, hdisk⟩⟩ <;> rw [hok] at houtcome
  · rw [Except.ok.inj houtcome, ← List.length_eq_zero_iff, List.length_mergeSort,
      List.length_eq_zero_iff] at hclean
    exact absurd hclean hne
  · cases houtcome
  · obtain ⟨rfl, hlinks⟩ := List.append_eq_nil_iff.mp hnil
    rw [Except.ok.inj houtcome, hdisk]
    exact ⟨batch, made, hcheck, hlinks, hmade, hwrite⟩

/-- The linked unit of a source has the identifier of the source and the hash of its text, and its
thresholds are those that are declared. -/
theorem exists_of_ofPath {s : Source} {p : CheckedUnit} (scope : Link.Scope)
    (h : Check.ofPath d s.path = .ok p) : ∃ text x, d.readText s.path = .ok text ∧
      x.IsSpelled text ∧ Source.Declares d s x ∧
      Means scope.itemClass? s.path.stem x (Link.linked scope p) ∧
      (Link.linked scope p).sourceHash = (ContentHash.ofText text).hex := by
  obtain ⟨text, x, htext, hx, hproper, rfl⟩ := Check.ofPath_eq_ok_iff.mp h
  have hspelled := Declaration.ofText_eq_ok_iff.mp hx
  exact ⟨text, x, htext, hspelled, ⟨text, htext, hspelled, hproper⟩, means_linked hproper, rfl⟩

/-- A disk with a folder of sources that all have the package `p`. -/
def sourceDisk (stems : List String) : Disk where
  entries := (["src"], .folder) :: stems.map fun stem =>
    (["src", stem ++ ".rule"], .file (Text.encode "package=\"p\"") false)

/-- The sources of such a disk, compiled. -/
def compiled (stems : List String) : Result :=
  compile (sourceDisk stems) (Source.scanTree (sourceDisk stems) ⟨"src"⟩) [] ⟨"out"⟩

/-- What a source declares is what is read in its file. -/
theorem declared_eq {s : Source} {x : Declaration} (h : Source.Declares d s x) :
    ((d.readText s.path).toOption.bind fun text =>
      (Declaration.ofText text.toList).toOption) = some x := by
  obtain ⟨text, htext, hspelled, -⟩ := h
  rw [htext, Except.toOption, Option.bind_some, Declaration.ofText_eq_ok_iff.mpr hspelled]
  rfl

end LiveRules.Builtin
