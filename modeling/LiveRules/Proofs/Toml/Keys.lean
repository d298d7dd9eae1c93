import LiveRules.Toml.Reader
import Mathlib.Data.List.Nodup

/-!
The keys of documents. Whatever the statements of a text are, the document that they build has one
value for each of its keys, so it makes no difference whether a field is looked up or all entries are
gone through.
-/

namespace LiveRules.Toml

variable {entries entries' : Entries} {key : Key} {node : Node} {name : String}
variable {form : Form} {path : List Key} {mark : Mark}

/-- No two entries have the same key. -/
def SingleKeys (entries : Entries) : Prop := (entries.map fun entry => entry.1.name).Nodup

theorem get?_eq_none_iff :
    get? name entries = none ↔ name ∉ entries.map fun entry => entry.1.name := by
  induction entries with
  | nil => simp [get?]
  | cons entry rest ih =>
    rw [get?, List.map_cons, List.mem_cons, not_or, ← ih]
    by_cases h : entry.1.name = name
    · simp [h]
    · simp [h, Ne.symm h]

theorem get?_eq_some_of_mem (h : SingleKeys entries) (hmem : (key, node) ∈ entries) :
    get? key.name entries = some node := by
  induction entries with
  | nil => cases hmem
  | cons entry rest ih =>
    obtain ⟨hnew, hrest⟩ := List.nodup_cons.mp h
    rw [get?]
    rcases List.mem_cons.mp hmem with rfl | hmem
    · exact if_pos rfl
    · have hne : entry.1.name ≠ key.name := by
        intro heq
        exact hnew (List.mem_map.mpr ⟨(key, node), hmem, heq.symm⟩)
      rw [if_neg hne, ih hrest hmem]

/-! ### One step -/

theorem SingleKeys.replace (h : SingleKeys entries) : SingleKeys (replace name node entries) := by
  have hnames : (Toml.replace name node entries).map (fun entry => entry.1.name) =
      entries.map fun entry => entry.1.name := by
    induction entries with
    | nil => rfl
    | cons entry rest ih =>
      rw [Toml.replace]
      split
      · rfl
      · rw [List.map_cons, List.map_cons, ih (List.nodup_cons.mp h).2]
  rwa [SingleKeys, hnames]

theorem SingleKeys.append (h : SingleKeys entries) (hnew : get? key.name entries = none) :
    SingleKeys (entries ++ [(key, node)]) := by
  rw [SingleKeys, List.map_append, List.map_cons, List.map_nil, List.nodup_append_comm]
  exact List.nodup_cons.mpr ⟨get?_eq_none_iff.mp hnew, h⟩

/-- A table that moves to the end leaves its place. -/
theorem SingleKeys.erase_append (h : SingleKeys entries) :
    SingleKeys (erase key.name entries ++ [(key, node)]) := by
  refine SingleKeys.append ((List.filter_sublist.map _).nodup h) (get?_eq_none_iff.mpr ?_)
  simp [erase]

/-- A change of tables keeps their keys single. -/
def KeepsSingle (change : Form → Entries → Option Entries) : Prop :=
  ∀ own entries entries', SingleKeys entries → change own entries = some entries' →
    SingleKeys entries'

/-- A change further down only exchanges or adds the value of one key. -/
theorem keepsSingle_alter {change : Form → Entries → Option Entries} (hchange : KeepsSingle change)
    (path : List Key) : KeepsSingle (alter form change path) := by
  intro own entries entries' h halter
  cases path with
  | nil => exact hchange own entries entries' h halter
  | cons key path =>
    rw [alter] at halter
    split at halter
    · rename_i hget
      obtain ⟨inner, -, rfl⟩ := Option.map_eq_some_iff.mp halter
      exact h.append hget
    · split at halter
      · obtain ⟨inner, -, rfl⟩ := Option.map_eq_some_iff.mp halter
        exact h.replace
      · cases halter
    · obtain ⟨items, -, rfl⟩ := Option.map_eq_some_iff.mp halter
      exact h.replace
    · cases halter

theorem keepsSingle_define (isDotted : Bool) (key : Key) (node : Node) :
    KeepsSingle (define isDotted key node) := by
  intro own entries entries' h hdefine
  rw [define] at hdefine
  split at hdefine
  · cases hdefine
  · split at hdefine
    · cases hdefine
    · rename_i hnew
      cases hdefine
      exact h.append (by simpa using hnew)

theorem keepsSingle_assign (path : List Key) (node : Node) : KeepsSingle (assign path node) := by
  intro own entries entries' h hassign
  rw [assign] at hassign
  split at hassign
  · cases hassign
  · exact keepsSingle_alter (keepsSingle_define _ _ _) _ own entries entries' h hassign

theorem keepsSingle_openTable (mark : Mark) (key : Key) : KeepsSingle (openTable mark key) := by
  intro own entries entries' h hopen
  rw [openTable] at hopen
  split at hopen <;> cases hopen
  · rename_i hget
    exact h.append hget
  · exact h.erase_append

theorem keepsSingle_openNext (mark : Mark) (key : Key) : KeepsSingle (openNext mark key) := by
  intro own entries entries' h hopen
  dsimp only [openNext] at hopen
  split at hopen <;> cases hopen
  · rename_i hget
    exact h.append hget
  · exact h.replace

/-! ### A whole document -/

variable {draft draft' : Draft}

theorem SingleKeys.underHeader {start : Mark → Key → Form → Entries → Option Entries}
    (h : SingleKeys draft.entries) (hstart : ∀ mark key, KeepsSingle (start mark key))
    (hunder : Toml.underHeader start mark path draft = some draft') : SingleKeys draft'.entries := by
  rw [Toml.underHeader] at hunder
  split at hunder
  · cases hunder
  · obtain ⟨entries, halter, rfl⟩ := Option.map_eq_some_iff.mp hunder
    exact keepsSingle_alter (hstart _ _) _ _ _ _ h halter

theorem SingleKeys.add {statement : Statement} (h : SingleKeys draft.entries)
    (hadd : draft.add statement = some draft') : SingleKeys draft'.entries := by
  cases statement with
  | header mark path => exact h.underHeader keepsSingle_openTable hadd
  | repeated mark path => exact h.underHeader keepsSingle_openNext hadd
  | pair mark path node =>
    obtain ⟨entries, halter, rfl⟩ := Option.map_eq_some_iff.mp hadd
    exact keepsSingle_alter (keepsSingle_assign path node) _ _ _ _ h halter

theorem SingleKeys.addAll {statements : List Statement} (h : SingleKeys draft.entries)
    (hadd : draft.addAll statements = .ok draft') : SingleKeys draft'.entries := by
  induction statements generalizing draft with
  | nil =>
    cases hadd
    exact h
  | cons statement rest ih =>
    rw [Draft.addAll] at hadd
    split at hadd
    · rename_i next hnext
      exact ih (h.add hnext) hadd
    · cases hadd

/-- A document has one value for each key. -/
theorem singleKeys_document {text : List Char} (h : document text = .ok entries) :
    SingleKeys entries := by
  rw [document] at h
  dsimp only at h
  split at h <;> cases h
  rename_i draft hadd _
  have hempty : SingleKeys ({} : Draft).entries := List.nodup_nil
  exact hempty.addAll hadd

end LiveRules.Toml
