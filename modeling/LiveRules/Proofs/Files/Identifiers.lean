import LiveRules.Naming
import LiveRules.Proofs.Files.Finding

/-!
Identifiers as paths. The path of a unit is made of the names that its identifier spells: a folder
for each segment in front of the last point, and a file for the rest.
-/

namespace LiveRules

open Text

namespace Path

variable {p : Path} {n : String}

/-- Names are pieces of their path. -/
theorem no_slash_of_mem_components (h : .name n ∈ p.components) : '/' ∉ n.toList := by
  have hcomponent {piece : List Char} (hp : piece ∈ p.pieces) (hc : component piece = .name n) :
      '/' ∉ n.toList := by
    rw [component] at hc
    split at hc
    · cases hc
    · rw [Component.name.injEq] at hc
      rw [← hc, String.toList_ofList]
      exact not_mem_of_mem_split hp
  obtain ⟨first, rest, hpieces⟩ := List.exists_cons_of_ne_nil (pieces_ne_nil (p := p))
  rw [components_eq hpieces, List.mem_append, List.mem_map] at h
  rcases h with h | ⟨piece, hpiece, hc⟩
  · rw [firstComponents] at h
    split_ifs at h <;> simp at h
    exact hcomponent (by rw [hpieces]; exact List.mem_cons_self) h.symm
  · refine hcomponent ?_ hc
    rw [hpieces]
    exact List.mem_cons_of_mem first (List.mem_of_mem_filter hpiece)

theorem no_slash_of_fileName? (h : p.fileName? = some n) : '/' ∉ n.toList := by
  apply no_slash_of_mem_components (p := p)
  rw [fileName?] at h
  cases hlast : p.components.getLast? with
  | none => simp [hlast] at h
  | some c =>
    cases c <;> simp [hlast] at h
    rw [← h]
    exact List.mem_of_getLast? hlast

theorem cutName_fst_subset {c : Char} (h : c ∈ (cutName n).1.toList) : c ∈ n.toList := by
  rw [cutName] at h
  cases hcut : splitLast? '.' n.toList with
  | none => simpa [hcut] using h
  | some x =>
    obtain ⟨before, after⟩ := x
    simp only [hcut] at h
    split at h
    · exact h
    · rw [(eq_of_splitLast? hcut).1]
      exact List.mem_append_left _ (by simpa using h)

theorem no_slash_stem (p : Path) : '/' ∉ p.stem.toList := by
  rw [stem, stem?]
  cases hn : p.fileName? with
  | none => simp
  | some n => exact fun h => no_slash_of_fileName? hn (cutName_fst_subset h)

end Path

namespace Naming

variable {base name identifier : String} {root : Path}

/-! ### Namespaces -/

theorem not_mem_of_isSegment {cs : List Char} {c : Char} (hc : isLetterOrDigit c = false)
    (h : isSegment cs = true) : c ∉ cs := by
  cases cs with
  | nil => simp
  | cons first rest =>
    simp only [isSegment, Bool.and_eq_true, List.all_eq_true] at h
    intro hmem
    have hok : isLetterOrDigit c = true := by
      rcases List.mem_cons.mp hmem with rfl | hmem
      · simp [isLetterOrDigit, h.1]
      · exact h.2 c hmem
    rw [hc] at hok
    cases hok

/-- A namespace consists of letters, digits, underscores and points. -/
theorem not_mem_of_isNamespace {c : Char} (hc : isLetterOrDigit c = false) (hpoint : c ≠ '.')
    (h : isNamespace base = true) : c ∉ base.toList := by
  rw [isNamespace, List.all_eq_true] at h
  intro hmem
  rw [← joined_split '.' base.toList] at hmem
  revert hmem h
  generalize split '.' base.toList = pieces
  intro h hmem
  induction pieces with
  | nil => simp [joined] at hmem
  | cons piece rest ih =>
    have hpiece := not_mem_of_isSegment hc (h piece List.mem_cons_self)
    by_cases hrest : rest = []
    · subst hrest
      exact hpiece hmem
    · rw [joined_cons hrest, List.mem_append, List.mem_append, List.mem_singleton] at hmem
      rcases hmem with (hmem | hmem) | hmem
      · exact hpiece hmem
      · exact hpoint hmem
      · exact ih (fun q hq => h q (List.mem_cons_of_mem piece hq)) hmem

/-! ### The names that an identifier spells -/

/-- The segments of a namespace that say something. -/
def segments (base : String) : List String :=
  ((split '.' base.toList).filter fun s => !s.isEmpty).map String.ofList

/-- The names on the way from a root to the file of a unit, and that of the file. -/
def names (identifier : String) : List String :=
  segments (splitIdentifier identifier).1 ++
    [(splitIdentifier identifier).2 ++ "." ++ artifactExtension]

theorem folder_eq_below : folder root base = Disk.below root (segments base) := by
  rw [folder, Disk.below, segments, List.foldl_map]

theorem artifactPath_eq_below : artifactPath root identifier =
    Disk.below root (names identifier) := by
  rw [names, Disk.below_append, ← folder_eq_below]
  rfl

theorem splitIdentifier_append (h : '.' ∉ name.toList) :
    splitIdentifier (base ++ "." ++ name) = (base, name) := by
  have hcut : splitLast? '.' (base ++ "." ++ name).toList = some (base.toList, name.toList) := by
    rw [String.toList_append, String.toList_append, List.append_assoc]
    exact splitLast?_append h
  simp only [splitIdentifier, hcut, String.ofList_toList]

theorem splitIdentifier_subset {c : Char} (h : c ∈ (splitIdentifier identifier).1.toList ∨
    c ∈ (splitIdentifier identifier).2.toList) : c ∈ identifier.toList := by
  rw [splitIdentifier] at h
  cases hcut : splitLast? '.' identifier.toList with
  | none => simpa [hcut] using h
  | some x =>
    obtain ⟨before, after⟩ := x
    simp only [hcut, String.toList_ofList] at h
    rw [(eq_of_splitLast? hcut).1, List.mem_append, List.mem_cons]
    exact h.imp id .inr

theorem isName_segment {segment : String} (hslash : '/' ∉ base.toList)
    (h : segment ∈ segments base) : Path.IsName segment := by
  obtain ⟨piece, hpiece, rfl⟩ := List.mem_map.mp h
  obtain ⟨hsplit, hne⟩ := List.mem_filter.mp hpiece
  have hpoint := not_mem_of_mem_split hsplit
  have hmem {c : Char} (hc : c ∈ piece) : c ∈ base.toList := by
    rw [← joined_split '.' base.toList]
    exact mem_joined hsplit hc
  have htext {s : String} (hs : String.ofList piece = s) : piece = s.toList := by
    rw [← hs, String.toList_ofList]
  refine ⟨fun hs => ?_, ?_, fun hs => ?_, fun hs => ?_⟩
  · rw [htext hs] at hne
    simp at hne
  · rw [String.toList_ofList]
    exact fun hc => hslash (hmem hc)
  · rw [htext hs] at hpoint
    exact hpoint (by decide)
  · rw [htext hs] at hpoint
    exact hpoint (by decide)

theorem isName_fileName (h : '/' ∉ name.toList) {ext : String} (hext : 2 ≤ ext.toList.length)
    (hslash : '/' ∉ ext.toList) : Path.IsName (name ++ "." ++ ext) := by
  have hlength : 3 ≤ (name ++ "." ++ ext).toList.length := by
    rw [String.toList_append, String.toList_append, List.length_append, List.length_append]
    change 3 ≤ _ + 1 + _
    omega
  refine ⟨?_, ?_, ?_, ?_⟩
  · intro hs
    rw [hs] at hlength
    exact absurd hlength (by decide)
  · rw [String.toList_append, String.toList_append, List.mem_append, List.mem_append, not_or, not_or]
    exact ⟨⟨h, by decide⟩, hslash⟩
  · intro hs
    rw [hs] at hlength
    exact absurd hlength (by decide)
  · intro hs
    rw [hs] at hlength
    exact absurd hlength (by decide)

/-- An identifier without a separator spells names. -/
theorem isName_names (h : '/' ∉ identifier.toList) :
    ∀ name ∈ names identifier, Path.IsName name := by
  intro name hname
  rcases List.mem_append.mp hname with hname | hname
  · exact isName_segment (fun hc => h (splitIdentifier_subset (.inl hc))) hname
  · rw [List.mem_singleton.mp hname]
    exact isName_fileName (fun hc => h (splitIdentifier_subset (.inr hc))) (by decide) (by decide)

theorem names_ne_nil : names identifier ≠ [] := by
  simp [names]

end Naming

end LiveRules
