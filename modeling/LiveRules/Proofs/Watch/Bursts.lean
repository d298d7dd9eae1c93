import LiveRules.Proofs.Files.Finding
import LiveRules.Watch.Pending
import Mathlib.Data.List.Pairwise

/-!
Bursts of changes. While changes wait they are merged one into the other, each into what its path
has come to so far. What a burst says in the end is a closed form of the changes that came since
the burst before: for each path, of the changes of that path alone. So every change is told of in
just one burst, and it does not matter how changes of different paths come between each other.
-/

namespace LiveRules

namespace Pending

variable {kind old new : ChangeKind} {kinds after : List ChangeKind}

/-! ### The changes of one path -/

/-- What the changes of one path come to. It is a deletion if that came last; otherwise it is the
first change after the last deletion, or the first of all when there was no deletion. -/
inductive Settles : List ChangeKind → ChangeKind → Prop where
  | gone {before : List ChangeKind} : Settles (before ++ [.deleted]) .deleted
  | there {before after : List ChangeKind} {kind : ChangeKind}
      (hbefore : before = [] ∨ before.getLast? = some .deleted) (hkind : kind ≠ .deleted)
      (hafter : .deleted ∉ after) : Settles (before ++ kind :: after) kind

@[simp] theorem combine_deleted_left : combine .deleted new = new := by
  cases new <;> rfl

@[simp] theorem combine_deleted_right : combine old .deleted = .deleted := by
  cases old <;> rfl

theorem combine_of_ne (hold : old ≠ .deleted) (hnew : new ≠ .deleted) : combine old new = old := by
  cases old <;> cases new <;> first | rfl | exact absurd rfl hold | exact absurd rfl hnew

/-- Changes of one path, merged one into the other. -/
def merged? : List ChangeKind → Option ChangeKind
  | [] => none
  | kind :: kinds => some (kinds.foldl combine kind)

theorem merged?_concat (kinds : List ChangeKind) (new : ChangeKind) :
    merged? (kinds ++ [new]) = some (((merged? kinds).map (combine · new)).getD new) := by
  cases kinds with
  | nil => rfl
  | cons kind kinds => simp [merged?, List.foldl_append]

/-- Where the file is there, only a deletion makes a difference. -/
theorem merged?_append (hafter : .deleted ∉ after) (h : merged? kinds = some old)
    (hold : old ≠ .deleted) : merged? (kinds ++ after) = some old := by
  induction after using List.reverseRecOn with
  | nil => rwa [List.append_nil]
  | append_singleton after new ih =>
    rw [List.mem_append, not_or, List.mem_singleton] at hafter
    rw [← List.append_assoc, merged?_concat, ih hafter.1, Option.map_some, Option.getD_some,
      combine_of_ne hold (Ne.symm hafter.2)]

theorem Settles.merged?_eq (h : Settles kinds kind) : merged? kinds = some kind := by
  cases h with
  | gone =>
    rw [merged?_concat]
    cases merged? _ <;> simp
  | @there before after _ hbefore hkind hafter =>
    rw [List.append_cons]
    refine merged?_append hafter ?_ hkind
    rw [merged?_concat]
    rcases hbefore with rfl | hlast
    · rfl
    · -- what came before has come to a deletion, which the next change undoes
      obtain ⟨front, rfl⟩ := List.getLast?_eq_some_iff.mp hlast
      rw [merged?_concat]
      cases merged? front <;> simp

theorem Settles.single (kind : ChangeKind) : Settles [kind] kind := by
  by_cases hkind : kind = .deleted
  · subst hkind
    exact @Settles.gone []
  · exact @Settles.there [] [] kind (.inl rfl) hkind List.not_mem_nil

/-- One more change is merged into what the others have come to. -/
theorem Settles.concat (h : Settles kinds old) (new : ChangeKind) :
    Settles (kinds ++ [new]) (combine old new) := by
  by_cases hnew : new = .deleted
  · subst hnew
    rw [combine_deleted_right]
    exact .gone
  · cases h with
    | gone => exact .there (.inr List.getLast?_concat) hnew List.not_mem_nil
    | there hbefore hkind hafter =>
      rw [combine_of_ne hkind hnew, List.append_assoc, List.cons_append]
      refine .there hbefore hkind ?_
      rw [List.mem_append, List.mem_singleton, not_or]
      exact ⟨hafter, Ne.symm hnew⟩

/-- The changes of a path come to one thing only. -/
theorem Settles.unique (h : Settles kinds old) (h' : Settles kinds new) : old = new :=
  Option.some.inj (h.merged?_eq.symm.trans h'.merged?_eq)

/-! ### The changes of all paths -/

variable {x y z : Change} {added added' changes changes' burst burst' : List Change} {p q : Path}

/-- What has happened at a path, first to last. -/
def kindsOf (p : Path) (added : List Change) : List ChangeKind :=
  (added.filter fun x => x.path.same p).map (·.kind)

/-- A table of what some changes have come to: each of their paths has one entry, under the spelling
that it came with first. -/
structure Gathers (added changes : List Change) : Prop where
  distinct : changes.Pairwise fun x y => x.path.same y.path = false
  covers : ∀ x ∈ added, ∃ y ∈ changes, y.path.same x.path = true
  settles : ∀ y ∈ changes, Settles (kindsOf y.path added) y.kind
  spelled : ∀ y ∈ changes, (find? y.path added).map Change.path = some y.path

/-- The table in the order of the paths. -/
structure IsBurst (added burst : List Change) : Prop extends Gathers added burst where
  sorted : burst.Pairwise fun x y => x.path.le y.path = true

theorem kindsOf_congr (h : p.same q = true) : kindsOf p added = kindsOf q added := by
  simp only [kindsOf, Path.same_congr h]

theorem find?_congr (h : p.same q = true) : find? p added = find? q added := by
  simp only [find?, Path.same_congr h]

theorem kindsOf_concat (p : Path) (added : List Change) (x : Change) :
    kindsOf p (added ++ [x]) =
      kindsOf p added ++ if x.path.same p = true then [x.kind] else [] := by
  rw [kindsOf, kindsOf, List.filter_append, List.map_append]
  by_cases hx : x.path.same p = true
  · simp [hx]
  · simp [hx]

/-- What happens at a path that is not there yet is added, otherwise it is merged. -/
theorem enter_cases (x : Change) (changes : List Change) :
    (∀ y ∈ changes, y.path.same x.path = false) ∧ enter x changes = changes ++ [x] ∨
    ∃ before y after, changes = before ++ y :: after ∧ y.path.same x.path = true ∧
      enter x changes = before ++ ⟨combine y.kind x.kind, y.path⟩ :: after := by
  induction changes with
  | nil => exact .inl ⟨by simp, rfl⟩
  | cons y rest ih =>
    by_cases hy : y.path.same x.path = true
    · exact .inr ⟨[], y, rest, rfl, hy, by rw [enter, if_pos hy]; rfl⟩
    · rw [enter, if_neg hy]
      rcases ih with ⟨hnone, henter⟩ | ⟨before, z, after, rfl, hz, henter⟩
      · refine .inl ⟨fun z hz => ?_, by rw [henter, List.cons_append]⟩
        rcases List.mem_cons.mp hz with rfl | hz
        · exact Bool.eq_false_iff.mpr hy
        · exact hnone z hz
      · exact .inr ⟨y :: before, z, after, rfl, hz, by rw [henter, List.cons_append]⟩

theorem Gathers.nil : Gathers [] [] :=
  ⟨.nil, by simp, by simp, by simp⟩

/-- An entry of another path stays what the changes have come to. -/
theorem Gathers.other (h : Gathers added changes) (hy : y ∈ changes)
    (hx : x.path.same y.path = false) : Settles (kindsOf y.path (added ++ [x])) y.kind := by
  rw [kindsOf_concat, hx, if_neg Bool.false_ne_true, List.append_nil]
  exact h.settles y hy

theorem Gathers.spelled_concat (h : Gathers added changes) (hy : y ∈ changes) :
    (find? y.path (added ++ [x])).map Change.path = some y.path := by
  obtain ⟨first, hfirst, hpath⟩ := Option.map_eq_some_iff.mp (h.spelled y hy)
  rw [find?, List.find?_append, ← find?, hfirst, Option.some_or, Option.map_some, hpath]

/-- A path without an entry had no changes. -/
theorem Gathers.none_of_new (h : Gathers added changes)
    (hnew : ∀ y ∈ changes, y.path.same p = false) : ∀ x ∈ added, x.path.same p = false := by
  intro x hx
  obtain ⟨y, hy, hsame⟩ := h.covers x hx
  rw [← Bool.not_eq_true, Path.same_iff, ← Path.same_iff.mp hsame, ← Path.same_iff,
    Bool.not_eq_true]
  exact hnew y hy

/-- A change of a path without an entry is an entry itself. -/
theorem Gathers.concat (h : Gathers added changes)
    (hnew : ∀ y ∈ changes, y.path.same x.path = false) :
    Gathers (added ++ [x]) (changes ++ [x]) := by
  have hnone := h.none_of_new hnew
  refine ⟨?_, fun z hz => ?_, fun z hz => ?_, fun z hz => ?_⟩
  · rw [List.pairwise_append]
    exact ⟨h.distinct, List.pairwise_singleton _ _, fun z hz w hw =>
      List.mem_singleton.mp hw ▸ hnew z hz⟩
  · rcases List.mem_append.mp hz with hz | hz
    · obtain ⟨w, hw, hsame⟩ := h.covers z hz
      exact ⟨w, List.mem_append_left _ hw, hsame⟩
    · obtain rfl := List.mem_singleton.mp hz
      exact ⟨z, by simp, Path.same_iff.mpr rfl⟩
  · rcases List.mem_append.mp hz with hz | hz
    · exact h.other hz (Path.same_comm .. ▸ hnew z hz)
    · obtain rfl := List.mem_singleton.mp hz
      have hnil : kindsOf z.path added = [] := by
        rw [kindsOf, List.map_eq_nil_iff, List.filter_eq_nil_iff]
        exact fun w hw => Bool.eq_false_iff.mp (hnone w hw)
      rw [kindsOf_concat, hnil, if_pos (Path.same_iff.mpr rfl), List.nil_append]
      exact .single z.kind
  · rcases List.mem_append.mp hz with hz | hz
    · exact h.spelled_concat hz
    · obtain rfl := List.mem_singleton.mp hz
      have hfind : find? z.path added = none := by
        rw [find?, List.find?_eq_none]
        exact fun w hw => Bool.eq_false_iff.mp (hnone w hw)
      rw [find?, List.find?_append, ← find?, hfind, Option.none_or, List.find?_cons,
        Path.same_iff.mpr rfl]
      rfl

variable {before after : List Change}

/-- The entries around that of a path are of other paths. -/
theorem Gathers.other_of_mem (h : Gathers added (before ++ y :: after))
    (hy : y.path.same x.path = true) (hz : z ∈ before ++ after) : x.path.same z.path = false := by
  obtain ⟨-, hrest, hbefore⟩ := List.pairwise_append.mp h.distinct
  have hyz : y.path.same z.path = false := by
    rcases List.mem_append.mp hz with hz | hz
    · exact Path.same_comm .. ▸ hbefore z hz y List.mem_cons_self
    · exact (List.pairwise_cons.mp hrest).1 z hz
  rwa [Path.same, Path.same_iff.mp hy, ← Path.same] at hyz

theorem mem_replaced {new : Change} :
    z ∈ before ++ new :: after ↔ z = new ∨ z ∈ before ++ after := by
  simp only [List.mem_append, List.mem_cons]
  exact or_left_comm

/-- The entry of a path changes its kind and keeps its place and its spelling. -/
theorem Gathers.merge (h : Gathers added (before ++ y :: after))
    (hy : y.path.same x.path = true) :
    Gathers (added ++ [x]) (before ++ ⟨combine y.kind x.kind, y.path⟩ :: after) := by
  have hmem : y ∈ before ++ y :: after := by simp
  have hold {z : Change} (hz : z ∈ before ++ after) : z ∈ before ++ y :: after :=
    mem_replaced.mpr (.inr hz)
  refine ⟨?_, fun z hz => ?_, fun z hz => ?_, fun z hz => ?_⟩
  · -- the paths are what they were
    obtain ⟨hfront, hrest, hbefore⟩ := List.pairwise_append.mp h.distinct
    have hback := List.pairwise_cons.mp hrest
    rw [List.pairwise_append, List.pairwise_cons]
    refine ⟨hfront, ⟨hback.1, hback.2⟩, fun z hz w hw => ?_⟩
    rcases List.mem_cons.mp hw with rfl | hw
    · exact hbefore z hz y List.mem_cons_self
    · exact hbefore z hz w (List.mem_cons_of_mem y hw)
  · rcases List.mem_append.mp hz with hz | hz
    · obtain ⟨w, hw, hsame⟩ := h.covers z hz
      rcases mem_replaced.mp hw with rfl | hw
      · exact ⟨⟨combine w.kind x.kind, w.path⟩, mem_replaced.mpr (.inl rfl), hsame⟩
      · exact ⟨w, mem_replaced.mpr (.inr hw), hsame⟩
    · obtain rfl := List.mem_singleton.mp hz
      exact ⟨⟨combine y.kind z.kind, y.path⟩, mem_replaced.mpr (.inl rfl), hy⟩
  · rcases mem_replaced.mp hz with rfl | hz
    · have hyx : x.path.same y.path = true := Path.same_iff.mpr (Path.same_iff.mp hy).symm
      rw [kindsOf_concat, if_pos hyx]
      exact (h.settles y hmem).concat x.kind
    · exact h.other (hold hz) (h.other_of_mem hy hz)
  · rcases mem_replaced.mp hz with rfl | hz
    · exact h.spelled_concat (y := y) hmem
    · exact h.spelled_concat (hold hz)

/-- Entering one more change keeps the table of what the changes have come to. -/
theorem Gathers.enter (h : Gathers added changes) (x : Change) :
    Gathers (added ++ [x]) (enter x changes) := by
  rcases enter_cases x changes with ⟨hnew, henter⟩ | ⟨before, y, after, rfl, hy, henter⟩
  · rw [henter]
    exact h.concat hnew
  · rw [henter]
    exact h.merge hy

theorem Gathers.isEmpty_iff (h : Gathers added changes) : changes = [] ↔ added = [] := by
  constructor
  · rintro rfl
    rw [List.eq_nil_iff_forall_not_mem]
    intro x hx
    obtain ⟨y, hy, -⟩ := h.covers x hx
    cases hy
  · rintro rfl
    rw [List.eq_nil_iff_forall_not_mem]
    intro y hy
    cases (h.spelled y hy)

theorem Gathers.isBurst_sorted (h : Gathers added changes) : IsBurst added (sorted changes) := by
  have hperm : (sorted changes).Perm changes := List.mergeSort_perm _ _
  refine { distinct := ?_, covers := fun x hx => ?_, settles := fun y hy => ?_,
           spelled := fun y hy => ?_, sorted := ?_ }
  · exact (hperm.pairwise_iff fun {x y} hxy => Path.same_comm y.path x.path ▸ hxy).mpr h.distinct
  · obtain ⟨y, hy, hsame⟩ := h.covers x hx
    exact ⟨y, hperm.mem_iff.mpr hy, hsame⟩
  · exact h.settles y (hperm.mem_iff.mp hy)
  · exact h.spelled y (hperm.mem_iff.mp hy)
  · have htrans (x y z : Change) (hxy : x.path.le y.path = true) (hyz : y.path.le z.path = true) :
        x.path.le z.path = true := Path.le_trans hxy hyz
    exact List.pairwise_mergeSort htrans (fun x y => Path.le_total x.path y.path) changes

/-- Changes that are the same path by path, however those of different paths are mixed. -/
def AgreeByPath (added added' : List Change) : Prop :=
  ∀ p, (added.filter fun x => x.path.same p) = added'.filter fun x => x.path.same p

theorem AgreeByPath.symm (h : AgreeByPath added added') : AgreeByPath added' added :=
  fun p => (h p).symm

/-- An entry is determined by the changes of its path. -/
theorem Gathers.mem_of_agree (h : Gathers added changes) (h' : Gathers added' changes')
    (hagree : AgreeByPath added added') (hy : y ∈ changes) : y ∈ changes' := by
  have hkinds (p : Path) : kindsOf p added = kindsOf p added' := by
    rw [kindsOf, kindsOf, hagree p]
  have hfind (p : Path) : find? p added = find? p added' := by
    rw [find?, find?, ← List.head?_filter, ← List.head?_filter, hagree p]
  obtain ⟨first, hfirst, hpath⟩ := Option.map_eq_some_iff.mp (h.spelled y hy)
  have hfirst' := hfirst
  rw [hfind, find?] at hfirst'
  -- the path has an entry in the other table, with the same kind and the same spelling
  obtain ⟨z, hz, hsame⟩ := h'.covers first (List.mem_of_find?_eq_some hfirst')
  rw [hpath] at hsame
  have hkind : y.kind = z.kind := by
    have hsettles := h'.settles z hz
    rw [← hkinds, kindsOf_congr hsame] at hsettles
    exact (h.settles y hy).unique hsettles
  have hspelling : some y.path = some z.path := by
    rw [← h.spelled y hy, ← h'.spelled z hz, ← hfind, find?_congr hsame]
  obtain ⟨kind, path⟩ := y
  obtain ⟨kind', path'⟩ := z
  cases hkind
  cases hspelling
  exact hz

/-- A burst does not depend on how changes of different paths were mixed. -/
theorem IsBurst.unique (h : IsBurst added burst) (h' : IsBurst added' burst')
    (hagree : AgreeByPath added added') : burst = burst' := by
  have hmem (y : Change) : y ∈ burst ↔ y ∈ burst' :=
    ⟨h.mem_of_agree h'.toGathers hagree, h'.mem_of_agree h.toGathers hagree.symm⟩
  have hnodup {added burst : List Change} (h : IsBurst added burst) : burst.Nodup :=
    h.distinct.imp fun {x y} hxy heq => by
      rw [heq, Path.same_iff.mpr rfl] at hxy
      cases hxy
  refine List.Perm.eq_of_pairwise ?_ h.sorted h'.sorted
    ((List.perm_ext_iff_of_nodup (hnodup h) (hnodup h')).mpr hmem)
  intro x y hx hy hxy hyx
  by_contra hne
  have : Std.Symm fun x y : Change => x.path.same y.path = false :=
    ⟨fun x y hxy => Path.same_comm y.path x.path ▸ hxy⟩
  have hpair := h.distinct.forall hx ((hmem y).mpr hy) hne
  rw [Path.same_iff.mpr (Path.leComponents_antisymm hxy hyx)] at hpair
  cases hpair

end Pending

end LiveRules
