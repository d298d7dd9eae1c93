import LiveRules.Proofs.Files.Paths
import Mathlib.Data.List.Induction
import Mathlib.Data.List.Nodup

/-!
Disks as trees. On a disk that is a tree every place has at most one entry and lies in a folder,
and the names on the way to it are names. A tree stays one when a place below a folder is set or a
file is removed.
-/

namespace LiveRules.Disk

variable {d e : Disk} {P Q F : Place} {x y : Entry}

/-! ### Entries -/

@[simp] theorem root_is_folder : d.entry? [] = some .folder := rfl

theorem lookup_entries (h : P ≠ []) : d.entry? P = lookup P d.entries := if_neg h

theorem lookup_put {entries : List (Place × Entry)} :
    lookup Q (put P x entries) = if Q = P then some x else lookup Q entries := by
  induction entries with
  | nil => simp [put, lookup, eq_comm]
  | cons head rest ih =>
    obtain ⟨place, old⟩ := head
    by_cases hp : place = P
    · subst hp
      by_cases hq : place = Q
      · simp [put, lookup, hq]
      · simp [put, lookup, hq, Ne.symm hq]
    · by_cases hq : place = Q
      · subst hq
        simp [put, lookup, hp]
      · simp [put, lookup, hp, hq, ih]

theorem lookup_drop {entries : List (Place × Entry)} :
    lookup Q (drop P entries) = if Q = P then none else lookup Q entries := by
  induction entries with
  | nil => simp [drop, lookup]
  | cons head rest ih =>
    obtain ⟨place, old⟩ := head
    rw [drop] at ih
    by_cases hp : place = P
    · subst hp
      rw [drop, List.filter_cons_of_neg (by simp), ih]
      by_cases hq : Q = place
      · rw [if_pos hq, if_pos hq]
      · rw [if_neg hq, if_neg hq, lookup, if_neg (Ne.symm hq)]
    · rw [drop, List.filter_cons_of_pos (by simpa using hp)]
      by_cases hq : place = Q
      · subst hq
        rw [lookup, if_pos rfl, if_neg hp, lookup, if_pos rfl]
      · rw [lookup, if_neg hq, ih, lookup, if_neg hq]

theorem mem_of_lookup {entries : List (Place × Entry)} (h : lookup P entries = some x) :
    (P, x) ∈ entries := by
  induction entries with
  | nil => simp [lookup] at h
  | cons head rest ih =>
    obtain ⟨place, old⟩ := head
    by_cases hp : place = P
    · rw [lookup, if_pos hp, Option.some.injEq] at h
      simp [hp, h]
    · rw [lookup, if_neg hp] at h
      exact List.mem_cons_of_mem _ (ih h)

theorem lookup_of_mem {entries : List (Place × Entry)} (hd : (entries.map Prod.fst).Nodup)
    (h : (P, x) ∈ entries) : lookup P entries = some x := by
  induction entries with
  | nil => simp at h
  | cons head rest ih =>
    obtain ⟨place, old⟩ := head
    rw [List.map_cons, List.nodup_cons] at hd
    rcases List.mem_cons.mp h with h | h
    · cases h
      simp [lookup]
    · have hp : place ≠ P := by
        rintro rfl
        exact hd.1 (List.mem_map.mpr ⟨_, h, rfl⟩)
      rw [lookup, if_neg hp, ih hd.2 h]

theorem mem_map_fst_put {entries : List (Place × Entry)} :
    Q ∈ (put P x entries).map Prod.fst ↔ Q = P ∨ Q ∈ entries.map Prod.fst := by
  induction entries with
  | nil => simp [put]
  | cons head rest ih =>
    obtain ⟨place, old⟩ := head
    by_cases hp : place = P
    · simp [put, hp]
    · rw [put, if_neg hp, List.map_cons, List.mem_cons, ih, List.map_cons, List.mem_cons]
      tauto

theorem nodup_put {entries : List (Place × Entry)} (h : (entries.map Prod.fst).Nodup) :
    ((put P x entries).map Prod.fst).Nodup := by
  induction entries with
  | nil => simp [put]
  | cons head rest ih =>
    obtain ⟨place, old⟩ := head
    rw [List.map_cons, List.nodup_cons] at h
    by_cases hp : place = P
    · rw [put, if_pos hp, List.map_cons, List.nodup_cons]
      exact h
    · rw [put, if_neg hp, List.map_cons, List.nodup_cons, mem_map_fst_put, not_or]
      exact ⟨⟨hp, h.1⟩, ih h.2⟩

/-! ### Trees -/

structure IsTree (d : Disk) : Prop where
  distinct : (d.entries.map Prod.fst).Nodup
  rootless : [] ∉ d.entries.map Prod.fst
  parent : ∀ {F name}, d.entry? (F ++ [name]) ≠ none → d.entry? F = some .folder
  isName : ∀ {F name}, d.entry? (F ++ [name]) ≠ none → Path.IsName name

theorem IsTree.mem_iff (h : d.IsTree) : (P, x) ∈ d.entries ↔ P ≠ [] ∧ d.entry? P = some x := by
  constructor
  · intro hmem
    have hne : P ≠ [] := by
      rintro rfl
      exact h.rootless (List.mem_map.mpr ⟨_, hmem, rfl⟩)
    exact ⟨hne, by rw [lookup_entries hne, lookup_of_mem h.distinct hmem]⟩
  · rintro ⟨hne, hx⟩
    rw [lookup_entries hne] at hx
    exact mem_of_lookup hx

/-- What lies above an entry is a folder. -/
theorem IsTree.above (h : d.IsTree) {names : List String} (hne : names ≠ [])
    (hx : d.entry? (F ++ names) ≠ none) : d.entry? F = some .folder := by
  induction names generalizing F with
  | nil => exact absurd rfl hne
  | cons name rest ih =>
    cases rest with
    | nil => exact h.parent hx
    | cons second more =>
      have hstep : d.entry? (F ++ [name]) = some .folder :=
        ih (by simp) (by rwa [List.append_assoc, List.singleton_append])
      exact h.parent (by rw [hstep]; simp)

/-- The names on the way to an entry are names. -/
theorem IsTree.names (h : d.IsTree) (hx : d.entry? P ≠ none) : ∀ name ∈ P, Path.IsName name := by
  induction P using List.reverseRecOn with
  | nil => simp
  | append_singleton F name ih =>
    intro n hn
    rcases List.mem_append.mp hn with hn | hn
    · exact ih (by rw [h.parent hx]; simp) n hn
    · rw [List.mem_singleton.mp hn]
      exact h.isName hx

/-- Entries under different places, each with a name in a folder, make a tree. -/
theorem IsTree.of_entries (hd : (d.entries.map Prod.fst).Nodup)
    (h : ∀ entry ∈ d.entries, entry.1 ≠ [] ∧ d.entry? entry.1.dropLast = some .folder ∧
      ∀ name ∈ entry.1.getLast?, Path.IsName name) : d.IsTree := by
  have hplace {F : Place} {name : String} (hx : d.entry? (F ++ [name]) ≠ none) :
      d.entry? F = some .folder ∧ Path.IsName name := by
    obtain ⟨x, hx⟩ := Option.ne_none_iff_exists'.mp hx
    rw [lookup_entries (by simp)] at hx
    obtain ⟨-, hF, hname⟩ := h _ (mem_of_lookup hx)
    rw [List.dropLast_concat] at hF
    exact ⟨hF, hname name (by simp)⟩
  refine ⟨hd, ?_, fun hx => (hplace hx).1, fun hx => (hplace hx).2⟩
  intro hroot
  obtain ⟨entry, hmem, hnil⟩ := List.mem_map.mp hroot
  exact (h entry hmem).1 hnil

/-! ### Changed disks -/

/-- A disk is as another one, but for what lies at one place. -/
structure Sets (P : Place) (o : Option Entry) (d e : Disk) : Prop where
  current : e.current = d.current
  troubles : e.troubles = d.troubles
  entry? : ∀ Q, e.entry? Q = if Q = P then o else d.entry? Q

/-- A disk holds what another one holds. -/
structure Same (d e : Disk) : Prop where
  current : e.current = d.current
  troubles : e.troubles = d.troubles
  entry? : ∀ Q, e.entry? Q = d.entry? Q

theorem Sound.of_troubles (hs : d.Sound) (h : e.troubles = d.troubles) : e.Sound := by
  intro n op place
  rw [h]
  exact hs n op place

theorem Sound.trouble? (hs : d.Sound) (op : FileOp) (place : Place) :
    d.trouble? op place = none := hs _ _ _

theorem sets_put (h : P ≠ []) : Sets P (some x) d { d.ticked with entries := put P x d.entries } where
  current := rfl
  troubles := rfl
  entry? := by
    intro Q
    by_cases hq : Q = []
    · subst hq
      rw [if_neg (Ne.symm h)]
      rfl
    · rw [lookup_entries hq, lookup_entries hq]
      exact lookup_put

theorem sets_drop (h : P ≠ []) : Sets P none d { d.ticked with entries := drop P d.entries } where
  current := rfl
  troubles := rfl
  entry? := by
    intro Q
    by_cases hq : Q = []
    · subst hq
      rw [if_neg (Ne.symm h)]
      rfl
    · rw [lookup_entries hq, lookup_entries hq]
      exact lookup_drop

theorem same_ticked : Same d d.ticked := ⟨rfl, rfl, fun _ => rfl⟩

theorem Same.refl : Same d d := ⟨rfl, rfl, fun _ => rfl⟩

/-- Setting a place in a folder keeps a tree, if the place does not turn from a folder to a file. -/
theorem IsTree.put (h : d.IsTree) {name : String} (hF : d.entry? F = some .folder)
    (hname : Path.IsName name) (hx : x = .folder ∨ d.entry? (F ++ [name]) ≠ some .folder) :
    IsTree { d.ticked with entries := Disk.put (F ++ [name]) x d.entries } := by
  have hsets := sets_put (d := d) (x := x) (P := F ++ [name]) (by simp)
  have hfolder {G : Place} (hG : d.entry? G = some .folder) :
      Disk.entry? { d.ticked with entries := Disk.put (F ++ [name]) x d.entries } G =
        some .folder := by
    rw [hsets.entry?]
    split <;> rename_i hg
    · rcases hx with rfl | hx
      · rfl
      · exact absurd (hg ▸ hG) hx
    · exact hG
  refine ⟨nodup_put h.distinct, ?_, ?_, ?_⟩
  · rw [mem_map_fst_put, not_or]
    exact ⟨by simp, h.rootless⟩
  · intro G n hn
    rw [hsets.entry?] at hn
    by_cases hg : G ++ [n] = F ++ [name]
    · rw [List.append_inj_left' hg rfl]
      exact hfolder hF
    · rw [if_neg hg] at hn
      exact hfolder (h.parent hn)
  · intro G n hn
    rw [hsets.entry?] at hn
    by_cases hg : G ++ [n] = F ++ [name]
    · rw [List.singleton_inj.mp (List.append_inj_right' hg rfl)]
      exact hname
    · rw [if_neg hg] at hn
      exact h.isName hn

/-- Removing a file keeps a tree. -/
theorem IsTree.drop (h : d.IsTree) (hP : P ≠ []) (hx : d.entry? P ≠ some .folder) :
    IsTree { d.ticked with entries := Disk.drop P d.entries } := by
  have hsets := sets_drop (d := d) hP
  have hsub : (Disk.drop P d.entries).Sublist d.entries := List.filter_sublist
  refine ⟨(hsub.map Prod.fst).nodup h.distinct, fun hmem => h.rootless ((hsub.map Prod.fst).mem hmem),
    ?_, ?_⟩
  · intro G n hn
    rw [hsets.entry?] at hn ⊢
    have hne : G ++ [n] ≠ P := fun hg => hn (if_pos hg)
    rw [if_neg hne] at hn
    have hG := h.parent hn
    rw [if_neg (fun hg : G = P => hx (hg ▸ hG)), hG]
  · intro G n hn
    rw [hsets.entry?] at hn
    have hne : G ++ [n] ≠ P := fun hg => hn (if_pos hg)
    rw [if_neg hne] at hn
    exact h.isName hn

theorem IsTree.ticked (h : d.IsTree) : d.ticked.IsTree :=
  ⟨h.distinct, h.rootless, fun hn => h.parent hn, fun hn => h.isName hn⟩

end LiveRules.Disk
