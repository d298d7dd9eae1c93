import LiveRules.Proofs.Compile.Units
import LiveRules.Proofs.Files.Identifiers

/-!
Identifiers whose segments all say something. They spell different paths, and such a path leads
back to its identifier: the namespace is found in the folder and the stem of the file is the rest.
-/

namespace LiveRules.Naming

open Text

variable {identifier identifier' base package stem : String} {root : Path}

/-- No segment is empty, and none leads to another folder. -/
structure IsDotted (identifier : String) : Prop where
  no_slash : '/' ∉ identifier.toList
  pieces : ∀ piece ∈ split '.' identifier.toList, piece ≠ []

instance : Decidable (IsDotted identifier) :=
  decidable_of_iff ('/' ∉ identifier.toList ∧ ∀ piece ∈ split '.' identifier.toList, piece ≠ [])
    ⟨fun h => ⟨h.1, h.2⟩, fun h => ⟨h.no_slash, h.pieces⟩⟩

/-- The names of such an identifier are its segments, the last with the extension of units. -/
theorem IsDotted.names_eq (h : IsDotted identifier) : ∃ front last,
    split '.' identifier.toList = front ++ [last] ∧ last ≠ [] ∧ (∀ piece ∈ front, piece ≠ []) ∧
      names identifier =
        front.map String.ofList ++ [String.ofList last ++ "." ++ artifactExtension] := by
  have hfilter {pieces : List (List Char)} (hp : ∀ piece ∈ pieces, piece ≠ []) :
      pieces.filter (fun s => !s.isEmpty) = pieces :=
    List.filter_eq_self.mpr fun piece hpiece => by simpa using hp piece hpiece
  cases hcut : splitLast? '.' identifier.toList with
  | none =>
    have hpieces := split_of_not_mem (splitLast?_eq_none_iff.mp hcut)
    refine ⟨[], identifier.toList, hpieces, ?_, by simp, ?_⟩
    · exact h.pieces _ (by rw [hpieces]; exact List.mem_singleton_self _)
    · simp only [names, splitIdentifier, hcut]
      simp [segments, split]
  | some x =>
    obtain ⟨before, after⟩ := x
    obtain ⟨heq, hafter⟩ := eq_of_splitLast? hcut
    have hpieces : split '.' identifier.toList = split '.' before ++ [after] := by
      rw [heq, split_append_sep, split_of_not_mem hafter]
    have hall := h.pieces
    simp only [hpieces, List.mem_append, List.mem_singleton] at hall
    have hfront : ∀ piece ∈ split '.' before, piece ≠ [] := fun piece hp => hall piece (.inl hp)
    refine ⟨split '.' before, after, hpieces, hall after (.inr rfl), hfront, ?_⟩
    simp only [names, splitIdentifier, hcut]
    rw [segments, String.toList_ofList, hfilter hfront]

theorem append_left_injective {s t ext : String} (h : s ++ ext = t ++ ext) : s = t := by
  rw [← String.toList_inj, String.toList_append, String.toList_append,
    List.append_cancel_right_eq] at h
  exact String.toList_inj.mp h

/-- Different identifiers spell different names. -/
theorem IsDotted.names_injective (h : IsDotted identifier) (h' : IsDotted identifier')
    (heq : names identifier = names identifier') : identifier = identifier' := by
  obtain ⟨front, last, hsplit, -, -, hnames⟩ := h.names_eq
  obtain ⟨front', last', hsplit', -, -, hnames'⟩ := h'.names_eq
  rw [hnames, hnames'] at heq
  obtain ⟨hfront, hlast⟩ := List.append_inj' heq rfl
  obtain rfl : front = front' :=
    List.map_injective_iff.mpr (fun a b hab => String.ofList_injective hab) hfront
  rw [List.cons.injEq, String.append_assoc, String.append_assoc] at hlast
  obtain rfl : last = last' := String.ofList_injective (append_left_injective hlast.1)
  exact String.toList_inj.mp (split_injective (hsplit.trans hsplit'.symm))

/-- An identifier whose file a search finds: it does not end with a point. -/
structure NamesFile (identifier : String) : Prop where
  no_slash : '/' ∉ identifier.toList
  ends : (splitIdentifier identifier).2 ≠ ""

theorem not_mem_splitIdentifier_snd : '.' ∉ (splitIdentifier identifier).2.toList := by
  rw [splitIdentifier]
  cases hcut : splitLast? '.' identifier.toList with
  | none => exact splitLast?_eq_none_iff.mp hcut
  | some x => simpa using (eq_of_splitLast? hcut).2

/-- The file of such an identifier is a visible unit. -/
theorem NamesFile.namesUnit (h : NamesFile identifier) : Disk.NamesUnit (names identifier) := by
  have hvisible {piece tail : List Char} (hne : piece ≠ []) (hp : '.' ∉ piece) :
      (piece ++ tail).head? ≠ some '.' := by
    obtain ⟨c, cs, rfl⟩ := List.exists_cons_of_ne_nil hne
    rintro hc
    obtain rfl := Option.some.inj hc
    exact hp List.mem_cons_self
  refine ⟨names_ne_nil, fun name hname => ?_, ?_⟩
  · rw [Disk.isHidden, beq_eq_false_iff_ne]
    rcases List.mem_append.mp hname with hname | hname
    · obtain ⟨piece, hpiece, rfl⟩ := List.mem_map.mp hname
      obtain ⟨hmem, hne⟩ := List.mem_filter.mp hpiece
      rw [String.toList_ofList, ← List.append_nil piece]
      exact hvisible (by simpa using hne) (not_mem_of_mem_split hmem)
    · rw [List.mem_singleton.mp hname, String.append_assoc, String.toList_append]
      exact hvisible (Path.toList_ne_nil h.ends) not_mem_splitIdentifier_snd
  · rw [Disk.endsWith, names, List.getLast?_concat]
    simp [Path.cutName_append h.ends (show '.' ∉ artifactExtension.toList by decide)]

/-- A visible unit has such an identifier. -/
theorem NamesFile.of_namesUnit (hslash : '/' ∉ identifier.toList)
    (h : Disk.NamesUnit (names identifier)) : NamesFile identifier := by
  refine ⟨hslash, fun hends => ?_⟩
  have hvisible := h.visible _ (List.mem_append_right _ (List.mem_singleton_self _))
  rw [hends] at hvisible
  exact absurd hvisible (by decide)

theorem IsDotted.namesFile (h : IsDotted identifier) : NamesFile identifier := by
  obtain ⟨front, last, -, hlast, -, hnames⟩ := h.names_eq
  refine ⟨h.no_slash, fun hends => hlast ?_⟩
  rw [names, hends] at hnames
  have hlast := List.singleton_inj.mp (List.append_inj' hnames rfl).2
  rw [String.append_assoc, String.append_assoc] at hlast
  rw [← @String.toList_ofList last, ← append_left_injective hlast]
  rfl

theorem IsDotted.namesUnit (h : IsDotted identifier) : Disk.NamesUnit (names identifier) :=
  h.namesFile.namesUnit

theorem split_identifier (h : '.' ∉ stem.toList) :
    split '.' (package ++ "." ++ stem).toList = split '.' package.toList ++ [stem.toList] := by
  rw [String.toList_append, String.toList_append, List.append_assoc, ← split_of_not_mem h]
  exact split_append_sep

theorem ne_nil_of_isNamespace (h : isNamespace base = true) :
    ∀ piece ∈ split '.' base.toList, piece ≠ [] := by
  rw [isNamespace, List.all_eq_true] at h
  rintro piece hpiece rfl
  exact absurd (h _ hpiece) (by simp [isSegment])

/-- A namespace and a stem without a point make such an identifier. -/
theorem isDotted_append (hpackage : isNamespace package = true) (hslash : '/' ∉ stem.toList)
    (hpoint : '.' ∉ stem.toList) (hstem : stem ≠ "") : IsDotted (package ++ "." ++ stem) := by
  constructor
  · rw [String.toList_append, String.toList_append, List.mem_append, List.mem_append, not_or, not_or]
    exact ⟨⟨not_mem_of_isNamespace (by decide) (by decide) hpackage, by decide⟩, hslash⟩
  · rw [split_identifier hpoint]
    intro piece hpiece
    rcases List.mem_append.mp hpiece with hpiece | hpiece
    · exact ne_nil_of_isNamespace hpackage piece hpiece
    · rw [List.mem_singleton.mp hpiece]
      exact Path.toList_ne_nil hstem

/-! ### Reading identifiers off paths -/

/-- The first place in the dotted spelling of a folder at which a namespace is found is where a
package begins that ends the spelling. -/
def Begins (base package : String) (dir : Path) : Prop :=
  ∃ front, dotted dir = front ++ package.toList ∧
    ∀ n < front.length, ¬base.toList <+: (dotted dir).drop n

/-- A package is the namespace itself or one below it. -/
def IsWithin (base package : String) : Prop :=
  package = base ∨ ∃ more, package = base ++ "." ++ more

theorem fromFirst?_append {word front rest : List Char} (hword : word <+: rest)
    (hfirst : ∀ n < front.length, ¬word <+: (front ++ rest).drop n) :
    fromFirst? word (front ++ rest) = some rest := by
  induction front with
  | nil =>
    rw [List.nil_append]
    cases rest with
    | nil =>
      obtain rfl := List.prefix_nil.mp hword
      rfl
    | cons c cs => rw [fromFirst?, if_pos (List.isPrefixOf_iff_prefix.mpr hword)]
  | cons c front ih =>
    have hc := hfirst 0 (Nat.zero_lt_succ _)
    rw [List.drop_zero, ← List.isPrefixOf_iff_prefix] at hc
    rw [List.cons_append, fromFirst?, ← List.cons_append, if_neg hc]
    exact ih fun n hn => hfirst (n + 1) (Nat.succ_lt_succ hn)

theorem fromFirst?_eq_none_iff {word text : List Char} :
    fromFirst? word text = none ↔ ¬word <:+: text := by
  induction text with
  | nil =>
    rw [fromFirst?, List.infix_nil]
    cases word <;> simp
  | cons c cs ih =>
    rw [fromFirst?, List.infix_cons_iff, not_or, ← ih, ← List.isPrefixOf_iff_prefix]
    split <;> simp_all

theorem fromFirst?_suffix {word text rest : List Char} (h : fromFirst? word text = some rest) :
    rest <:+ text := by
  induction text with
  | nil =>
    rw [fromFirst?, Option.ite_none_right_eq_some, Option.some.injEq] at h
    exact h.2 ▸ List.suffix_refl _
  | cons c cs ih =>
    rw [fromFirst?] at h
    split at h
    · exact Option.some.inj h ▸ List.suffix_refl _
    · exact (ih h).trans (List.suffix_cons c cs)

theorem no_slash_dotted (dir : Path) : '/' ∉ dotted dir := by
  intro h
  rcases mem_of_mem_joined h with h | ⟨piece, hpiece, h⟩
  · exact absurd h (by decide)
  · obtain ⟨component, hcomponent, hname⟩ := List.mem_filterMap.mp hpiece
    cases component with
    | name s =>
      obtain rfl := Option.some.inj hname
      exact Path.no_slash_of_mem_components hcomponent h
    | _ => cases hname

theorem stem?_join {name : String} (h : Path.IsName name) :
    (root.join ⟨name⟩).stem? = some (Path.cutName name).1 := by
  rw [Path.stem?, Path.fileName?_join h, Option.map_some]

theorem segments_ne_nil (h : ∀ piece ∈ split '.' base.toList, piece ≠ []) :
    segments base ≠ [] := by
  obtain ⟨piece, hpiece⟩ := List.exists_mem_of_ne_nil _ (split_ne_nil '.' base.toList)
  exact List.ne_nil_of_mem (List.mem_map_of_mem (List.mem_filter.mpr
    ⟨hpiece, by simpa using h piece hpiece⟩))

theorem text_folder_ne_empty (hslash : '/' ∉ package.toList)
    (hne : ∀ piece ∈ split '.' package.toList, piece ≠ []) : (folder root package).text ≠ "" := by
  have hnames : ∀ name ∈ segments package, Path.IsName name := fun name => isName_segment hslash
  have hsegments := segments_ne_nil hne
  rw [folder_eq_below]
  revert hnames hsegments
  induction segments package using List.reverseRecOn with
  | nil => exact fun _ hne => absurd rfl hne
  | append_singleton front name _ =>
    intro hnames _
    rw [Disk.below_append]
    exact Path.text_join_ne_empty (hnames name (by simp))

/-- From the path of a unit there is read what stands from the first occurrence of the namespace
in its folder on. -/
theorem IsDotted.derive_eq (h : IsDotted (package ++ "." ++ stem)) (hpoint : '.' ∉ stem.toList) :
    derive (artifactPath root (package ++ "." ++ stem)) base =
      match fromFirst? base.toList (dotted (folder root package)) with
      | some found => .ok (.ofList (found ++ '.' :: stem.toList))
      | none => .error (.namespaceNotFound base (artifactPath root (package ++ "." ++ stem))) := by
  have hpieces := h.pieces
  rw [split_identifier hpoint] at hpieces
  have hslashes := h.no_slash
  rw [String.toList_append, String.toList_append, List.mem_append, List.mem_append, not_or,
    not_or] at hslashes
  have hstem : stem ≠ "" := fun hs => hpieces stem.toList (by simp) (by rw [hs]; rfl)
  have hname : Path.IsName (stem ++ "." ++ artifactExtension) :=
    isName_fileName hslashes.2 (by decide) (by decide)
  have hpath : artifactPath root (package ++ "." ++ stem) =
      (folder root package).join ⟨stem ++ "." ++ artifactExtension⟩ := by
    simp only [artifactPath, splitIdentifier_append hpoint]
  have hfolder : (folder root package).text ≠ "" :=
    text_folder_ne_empty hslashes.1.1 fun piece hp => hpieces piece (List.mem_append_left _ hp)
  obtain ⟨dir, hdir, htrimmed⟩ := Path.exists_parent_join hname hfolder
  have hdotted : dotted dir = dotted (folder root package) := by
    rw [dotted, htrimmed.components_eq, ← dotted]
  cases hfirst : fromFirst? base.toList (dotted (folder root package)) <;>
    simp only [derive, hpath, hdir, stem?_join hname, hdotted, hfirst,
      Path.cutName_append hstem (show '.' ∉ artifactExtension.toList by decide)]

/-- The identifier of a unit is read off the path of its file. -/
theorem IsDotted.derive_artifactPath (h : IsDotted (package ++ "." ++ stem))
    (hpoint : '.' ∉ stem.toList) (hword : base.toList <+: package.toList)
    (hbegins : Begins base package (folder root package)) :
    derive (artifactPath root (package ++ "." ++ stem)) base = .ok (package ++ "." ++ stem) := by
  obtain ⟨front, hfront, hfirst⟩ := hbegins
  have hfound : fromFirst? base.toList (dotted (folder root package)) = some package.toList := by
    rw [hfront]
    exact fromFirst?_append hword (by rwa [hfront] at hfirst)
  simp only [h.derive_eq hpoint, hfound]
  rw [Except.ok.injEq, ← String.toList_inj]
  simp

/-- What is read off the path of a visible unit names a file again, although it may be another
identifier than that of the unit. -/
theorem NamesFile.of_derive (h : NamesFile identifier) {found : String}
    (hderive : derive (artifactPath root identifier) base = .ok found) : NamesFile found := by
  have hlast : '/' ∉ (splitIdentifier identifier).2.toList := fun hc =>
    h.no_slash (splitIdentifier_subset (.inr hc))
  have hstem : (artifactPath root identifier).stem? = some (splitIdentifier identifier).2 := by
    rw [artifactPath, stem?_join (isName_fileName hlast (by decide) (by decide)),
      Path.cutName_append h.ends (by decide)]
  rw [derive, hstem] at hderive
  split at hderive
  · rename_i dir stem hdir hsome
    obtain rfl := Option.some.inj hsome
    split at hderive
    · rename_i front hfirst
      have hfound : found = String.ofList front ++ "." ++ (splitIdentifier identifier).2 := by
        rw [← Except.ok.inj hderive, ← String.toList_inj]
        simp
      refine ⟨?_, ?_⟩
      · rw [hfound, String.toList_append, String.toList_append, String.toList_ofList,
          List.mem_append, List.mem_append, not_or, not_or]
        exact ⟨⟨fun hc => no_slash_dotted dir ((fromFirst?_suffix hfirst).subset hc), by decide⟩,
          hlast⟩
      · rw [hfound, splitIdentifier_append not_mem_splitIdentifier_snd]
        exact h.ends
    · cases hderive
  · cases hderive

theorem IsWithin.isPrefix (h : IsWithin base package) : base.toList <+: package.toList := by
  rcases h with rfl | ⟨more, rfl⟩
  · exact List.prefix_refl _
  · rw [String.toList_append, String.toList_append, List.append_assoc]
    exact List.prefix_append _ _

/-- Behind the last point of an identifier there is only the end of its stem. -/
theorem splitIdentifier_cases (package stem : String) : ∃ front last,
    splitIdentifier (package ++ "." ++ stem) = (front, last) ∧
      package ++ "." ++ stem = front ++ "." ++ last ∧ '.' ∉ last.toList ∧
      package.toList <+: front.toList := by
  cases hcut : splitLast? '.' (package ++ "." ++ stem).toList with
  | none => exact absurd (splitLast?_eq_none_iff.mp hcut) (by simp [String.toList_append])
  | some x =>
    obtain ⟨before, after⟩ := x
    obtain ⟨heq, hafter⟩ := eq_of_splitLast? hcut
    refine ⟨.ofList before, .ofList after, by simp only [splitIdentifier, hcut], ?_, ?_, ?_⟩
    · rw [← String.toList_inj, heq]
      simp
    · rwa [String.toList_ofList]
    · rw [String.toList_ofList]
      rw [String.toList_append, String.toList_append, List.append_assoc,
        List.append_eq_append_iff] at heq
      rcases heq with ⟨more, hbefore, -⟩ | ⟨more, hpackage, hrest⟩
      · exact hbefore ▸ List.prefix_append _ _
      · cases more with
        | nil => exact hpackage ▸ by simp
        | cons c more =>
          have hmem : '.' ∈ after := by
            obtain ⟨-, hafter'⟩ := List.cons.inj hrest
            rw [hafter']
            simp
          exact absurd hmem hafter

/-! ### Whether an identifier is read back -/

/-- A word occurs in a text at a position, and at none before. -/
def FirstAt (word text : List Char) (n : Nat) : Prop :=
  word <+: text.drop n ∧ ∀ k < n, ¬word <+: text.drop k

section FirstAt

variable {word text rest : List Char} {n : Nat}

theorem firstAt_zero : FirstAt word text 0 ↔ word <+: text := by
  simp [FirstAt]

theorem firstAt_succ {c : Char} :
    FirstAt word (c :: text) (n + 1) ↔ ¬word <+: c :: text ∧ FirstAt word text n := by
  rw [FirstAt, FirstAt, List.drop_succ_cons]
  constructor
  · rintro ⟨hword, hfirst⟩
    exact ⟨hfirst 0 (Nat.zero_lt_succ n), hword, fun k hk => hfirst (k + 1) (Nat.succ_lt_succ hk)⟩
  · rintro ⟨hno, hword, hfirst⟩
    refine ⟨hword, fun k hk => ?_⟩
    cases k with
    | zero => exact hno
    | succ k => exact hfirst k (Nat.lt_of_succ_lt_succ hk)

theorem FirstAt.le_length (h : FirstAt word text n) : n ≤ text.length := by
  by_contra hlong
  obtain ⟨hword, hfirst⟩ := h
  rw [List.drop_eq_nil_of_le (by omega), List.prefix_nil] at hword
  subst hword
  exact hfirst 0 (by omega) List.nil_prefix

/-- What is found begins where the word first occurs. -/
theorem fromFirst?_eq_some_iff :
    fromFirst? word text = some rest ↔ ∃ n, FirstAt word text n ∧ text.drop n = rest := by
  induction text with
  | nil =>
    rw [fromFirst?, Option.ite_none_right_eq_some, Option.some.injEq, List.isEmpty_iff]
    constructor
    · rintro ⟨rfl, rfl⟩
      exact ⟨0, firstAt_zero.mpr List.nil_prefix, rfl⟩
    · rintro ⟨n, hfirst, rfl⟩
      obtain rfl := Nat.le_zero.mp hfirst.le_length
      exact ⟨List.prefix_nil.mp (firstAt_zero.mp hfirst), rfl⟩
  | cons c cs ih =>
    rw [fromFirst?]
    by_cases hword : word <+: c :: cs
    · rw [if_pos (List.isPrefixOf_iff_prefix.mpr hword), Option.some.injEq]
      constructor
      · rintro rfl
        exact ⟨0, firstAt_zero.mpr hword, rfl⟩
      · rintro ⟨n, hfirst, rfl⟩
        cases n with
        | zero => rfl
        | succ n => exact absurd hword (firstAt_succ.mp hfirst).1
    · rw [if_neg (mt List.isPrefixOf_iff_prefix.mp hword), ih]
      constructor
      · rintro ⟨n, hfirst, rfl⟩
        exact ⟨n + 1, firstAt_succ.mpr ⟨hword, hfirst⟩, rfl⟩
      · rintro ⟨n, hfirst, rfl⟩
        cases n with
        | zero => exact absurd (firstAt_zero.mp hfirst) hword
        | succ n => exact ⟨n, (firstAt_succ.mp hfirst).2, rfl⟩

end FirstAt

/-- The dotted spelling of the folder of a namespace ends with the namespace. -/
theorem exists_dotted_folder (root : Path) (hslash : '/' ∉ package.toList)
    (hne : ∀ piece ∈ split '.' package.toList, piece ≠ []) :
    ∃ front, dotted (folder root package) = front ++ package.toList := by
  have hspelled (spell : String → Option (List Char)) (h : ∀ s, spell s = some s.toList) :
      (segments package).filterMap spell = split '.' package.toList := by
    obtain rfl : spell = some ∘ String.toList := funext h
    rw [List.filterMap_eq_map, segments,
      List.filter_eq_self.mpr fun piece hp => by simpa using hne piece hp]
    simp
  rw [dotted, folder_eq_below, Disk.components_below fun name => isName_segment hslash,
    List.filterMap_append, List.filterMap_map, hspelled]
  swap
  · exact fun _ => rfl
  generalize root.components.filterMap _ = above
  cases above with
  | nil => exact ⟨[], by rw [List.nil_append, joined_split, List.nil_append]⟩
  | cons first more =>
    exact ⟨joined ['.'] (first :: more) ++ ['.'], by
      rw [joined_append (List.cons_ne_nil _ _) (split_ne_nil _ _), joined_split]⟩

/-- The path of a unit leads back to its identifier if the first occurrence of a namespace in the
folder is where the package of the unit begins. If there is no occurrence, this is the error; and
if the first one is elsewhere, another identifier with the same end is read. -/
theorem derive_artifactPath_cases (root : Path) (base : String)
    (hpackage : isNamespace package = true) (hstem : stem ≠ "") (hpoint : '.' ∉ stem.toList)
    (hslash : '/' ∉ stem.toList) : ∃ front,
    dotted (folder root package) = front ++ package.toList ∧
    (derive (artifactPath root (package ++ "." ++ stem)) base = .ok (package ++ "." ++ stem) ↔
      FirstAt base.toList (dotted (folder root package)) front.length) ∧
    (derive (artifactPath root (package ++ "." ++ stem)) base =
        .error (.namespaceNotFound base (artifactPath root (package ++ "." ++ stem))) ↔
      ¬base.toList <:+: dotted (folder root package)) ∧
    (¬FirstAt base.toList (dotted (folder root package)) front.length →
      base.toList <:+: dotted (folder root package) →
        ∃ other, other ≠ package ∧
          derive (artifactPath root (package ++ "." ++ stem)) base =
            .ok (other ++ "." ++ stem)) := by
  obtain ⟨front, hfront⟩ := exists_dotted_folder root
    (not_mem_of_isNamespace (by decide) (by decide) hpackage) (ne_nil_of_isNamespace hpackage)
  refine ⟨front, hfront, ?_⟩
  rw [(isDotted_append hpackage hslash hpoint hstem).derive_eq hpoint]
  -- an occurrence at which the package is left can only be where it begins
  have hposition {n : Nat} (hfirst : FirstAt base.toList (dotted (folder root package)) n)
      (hdrop : (dotted (folder root package)).drop n = package.toList) : n = front.length := by
    have hle := hfirst.le_length
    have hlength := congrArg List.length hdrop
    rw [hfront] at hle hlength
    simp only [List.length_drop, List.length_append] at hle hlength
    omega
  cases hfound : fromFirst? base.toList (dotted (folder root package)) with
  | none =>
    have hnone := fromFirst?_eq_none_iff.mp hfound
    refine ⟨?_, by simpa using hnone, fun _ hsome => absurd hsome hnone⟩
    simp only [reduceCtorEq, false_iff]
    exact fun hfirst => hnone (hfirst.1.isInfix.trans (List.drop_suffix _ _).isInfix)
  | some rest =>
    obtain ⟨n, hfirst, hdrop⟩ := fromFirst?_eq_some_iff.mp hfound
    have hoccurs : base.toList <:+: dotted (folder root package) := by
      by_contra hnone
      rw [fromFirst?_eq_none_iff.mpr hnone] at hfound
      cases hfound
    have hback :
        String.ofList (rest ++ '.' :: stem.toList) = String.ofList rest ++ "." ++ stem := by
      simp [← String.toList_inj]
    have hother : FirstAt base.toList (dotted (folder root package)) front.length ↔
        String.ofList rest = package := by
      rw [← String.toList_inj, String.toList_ofList]
      constructor
      · intro h
        have heq := fromFirst?_eq_some_iff.mpr ⟨_, h, rfl⟩
        rw [hfound, hfront, List.drop_left] at heq
        exact Option.some.inj heq
      · rintro rfl
        exact hposition hfirst hdrop ▸ hfirst
    dsimp only
    rw [hback, hother]
    refine ⟨?_, by simpa using hoccurs, fun hne _ => ⟨_, hne, rfl⟩⟩
    rw [Except.ok.injEq, String.append_assoc, String.append_assoc]
    exact ⟨append_left_injective, fun h => by rw [h]⟩

/-- The namespace occurs in the root already, and so the package is not where it begins. -/
theorem derive_artifactPath_cases_rooted :
    isNamespace "p" = true ∧ "A" ≠ "" ∧ '.' ∉ "A".toList ∧ '/' ∉ "A".toList ∧
      ∃ other, other ≠ "p" ∧
        derive (artifactPath ⟨"srv/p"⟩ ("p" ++ "." ++ "A")) "p" = .ok (other ++ "." ++ "A") := by
  have hdotted : dotted (folder ⟨"srv/p"⟩ "p") = "srv.p.p".toList := by decide
  have hpackage : isNamespace "p" = true := by decide
  refine ⟨hpackage, by decide, by decide, by decide, ?_⟩
  obtain ⟨front, hfront, -, -, helsewhere⟩ :=
    derive_artifactPath_cases ⟨"srv/p"⟩ "p" hpackage (show "A" ≠ "" by decide) (by decide)
      (by decide)
  have hlength := congrArg List.length hfront
  rw [hdotted, List.length_append] at hlength
  apply helsewhere
  · rintro ⟨-, hfirst⟩
    refine hfirst 4 ?_ (by rw [hdotted]; decide)
    have hshort : "srv.p.p".toList.length = 7 ∧ "p".toList.length = 1 := by decide
    omega
  · rw [hdotted]
    exact ⟨"srv.p.".toList, [], by decide⟩

end LiveRules.Naming
