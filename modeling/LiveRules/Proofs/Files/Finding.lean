import LiveRules.Proofs.Files.Operations
import Mathlib.Data.List.Nodup

/-!
What is found below a folder. Sorting paths has one result for all orders of the same paths, so
the files that `collect` and `listed` find depend on the entries of a disk only, and only on those
with the extension that is asked for.
-/

namespace LiveRules

namespace Path

variable {p q r : Path} {ps qs : List Path}

/-! ### Order -/

theorem Component.le_total (a b : Component) : a.le b = true ∨ b.le a = true := by
  cases a <;> cases b <;> simp [Component.le, Component.rank, String.le_total]

theorem Component.le_antisymm {a b : Component} (h : a.le b = true) (h' : b.le a = true) :
    a = b := by
  cases a <;> cases b <;> simp_all [Component.le, Component.rank]
  exact String.le_antisymm h h'

theorem Component.le_trans {a b c : Component} (h : a.le b = true) (h' : b.le c = true) :
    a.le c = true := by
  cases a <;> cases b <;> cases c <;> simp_all [Component.le, Component.rank]
  exact String.le_trans h h'

theorem leComponents_total (as bs : List Component) :
    leComponents as bs = true ∨ leComponents bs as = true := by
  induction as generalizing bs with
  | nil => exact .inl rfl
  | cons a as ih =>
    cases bs with
    | nil => exact .inr rfl
    | cons b bs =>
      by_cases hab : a = b
      · subst hab
        simpa [leComponents] using ih bs
      · simpa [leComponents, hab, Ne.symm hab] using Component.le_total a b

theorem leComponents_antisymm {as bs : List Component} (h : leComponents as bs = true)
    (h' : leComponents bs as = true) : as = bs := by
  induction as generalizing bs with
  | nil =>
    cases bs with
    | nil => rfl
    | cons b bs => simp [leComponents] at h'
  | cons a as ih =>
    cases bs with
    | nil => simp [leComponents] at h
    | cons b bs =>
      by_cases hab : a = b
      · subst hab
        simp only [leComponents, ↓reduceIte] at h h'
        rw [ih h h']
      · simp only [leComponents, hab, Ne.symm hab, ↓reduceIte] at h h'
        exact absurd (Component.le_antisymm h h') hab

theorem leComponents_trans {as bs cs : List Component} (h : leComponents as bs = true)
    (h' : leComponents bs cs = true) : leComponents as cs = true := by
  induction as generalizing bs cs with
  | nil => rfl
  | cons a as ih =>
    cases bs with
    | nil => simp [leComponents] at h
    | cons b bs =>
      cases cs with
      | nil => simp [leComponents] at h'
      | cons c cs =>
        by_cases hab : a = b
        · subst hab
          by_cases hac : a = c
          · subst hac
            simp only [leComponents, ↓reduceIte] at h h' ⊢
            exact ih h h'
          · simp only [leComponents, hac, ↓reduceIte] at h' ⊢
            exact h'
        · simp only [leComponents, hab, ↓reduceIte] at h
          by_cases hbc : b = c
          · subst hbc
            simp only [leComponents, hab, ↓reduceIte]
            exact h
          · simp only [leComponents, hbc, ↓reduceIte] at h'
            have hac : a ≠ c := by
              rintro rfl
              exact hab (Component.le_antisymm h h')
            simp only [leComponents, hac, ↓reduceIte]
            exact Component.le_trans h h'

theorem same_iff : p.same q = true ↔ p.components = q.components := by
  rw [same, beq_iff_eq]

theorem same_comm (p q : Path) : p.same q = q.same p := by
  rw [same, same, Bool.beq_comm]

theorem le_trans (h : p.le q = true) (h' : q.le r = true) : p.le r = true :=
  leComponents_trans h h'

theorem le_total (p q : Path) : (p.le q || q.le p) = true := by
  rw [Bool.or_eq_true]
  exact leComponents_total _ _

/-- Paths that are the same to one path are the same to each other. -/
theorem same_congr (h : p.same q = true) : r.same p = r.same q := by
  rw [same, same, same_iff.mp h]

theorem insertSorted_perm (p : Path) (ps : List Path) : (insertSorted p ps).Perm (p :: ps) := by
  induction ps with
  | nil => exact .refl _
  | cons q rest ih =>
    rw [insertSorted]
    split
    · exact .refl _
    · exact (ih.cons q).trans (.swap p q rest)

theorem sort_perm (ps : List Path) : (sort ps).Perm ps := by
  induction ps with
  | nil => exact .refl _
  | cons p rest ih => exact (insertSorted_perm p (sort rest)).trans (ih.cons p)

@[simp] theorem mem_sort : p ∈ sort ps ↔ p ∈ ps := (sort_perm ps).mem_iff

theorem pairwise_insertSorted (p : Path) (h : ps.Pairwise fun a b => a.le b = true) :
    (insertSorted p ps).Pairwise fun a b => a.le b = true := by
  induction ps with
  | nil => simp [insertSorted]
  | cons q rest ih =>
    rw [List.pairwise_cons] at h
    rw [insertSorted]
    split <;> rename_i hpq
    · refine List.pairwise_cons.mpr ⟨fun r hr => ?_, List.pairwise_cons.mpr h⟩
      rcases List.mem_cons.mp hr with rfl | hr
      · exact hpq
      · exact leComponents_trans hpq (h.1 r hr)
    · refine List.pairwise_cons.mpr ⟨fun r hr => ?_, ih h.2⟩
      rcases List.mem_cons.mp ((insertSorted_perm p rest).mem_iff.mp hr) with rfl | hr
      · exact (leComponents_total _ _).resolve_left hpq
      · exact h.1 r hr

theorem pairwise_sort (ps : List Path) : (sort ps).Pairwise fun a b => a.le b = true := by
  induction ps with
  | nil => exact .nil
  | cons p rest ih => exact pairwise_insertSorted p ih

/-- The order in which paths are given to the sort does not matter. -/
theorem sort_eq_of_perm (h : ps.Perm qs)
    (hinj : ∀ p ∈ ps, ∀ q ∈ ps, p.components = q.components → p = q) : sort ps = sort qs := by
  refine List.Perm.eq_of_pairwise ?_ (pairwise_sort ps) (pairwise_sort qs)
    ((sort_perm ps).trans (h.trans (sort_perm qs).symm))
  intro p q hp hq hpq hqp
  exact hinj p (mem_sort.mp hp) q (h.mem_iff.mpr (mem_sort.mp hq)) (leComponents_antisymm hpq hqp)

end Path

namespace Disk

variable {d e : Disk} {p q : Path} {P F : Place} {names : List String} {n ext : String}

/-! ### Paths below a folder -/

@[simp] theorem below_append (p : Path) (xs ys : List String) :
    below p (xs ++ ys) = below (below p xs) ys := List.foldl_append

theorem components_below (h : ∀ name ∈ names, Path.IsName name) :
    (below p names).components = p.components ++ names.map Path.Component.name := by
  induction names generalizing p with
  | nil => simp [below]
  | cons name rest ih =>
    change (below (p.join ⟨name⟩) rest).components = _
    rw [ih fun q hq => h q (List.mem_cons_of_mem name hq),
      Path.components_join (h name List.mem_cons_self), List.append_assoc]
    rfl

theorem below_injective {xs ys : List String} (hx : ∀ name ∈ xs, Path.IsName name)
    (hy : ∀ name ∈ ys, Path.IsName name)
    (h : (below p xs).components = (below p ys).components) : xs = ys := by
  rw [components_below hx, components_below hy, List.append_cancel_left_eq] at h
  refine List.map_injective_iff.mpr (fun a b hab => ?_) h
  cases hab
  rfl

/-- Whether the last of some names has an extension. -/
def endsWith (names : List String) (ext : String) : Bool :=
  (names.getLast?.bind fun name => (Path.cutName name).2) == some ext

theorem extension?_join (h : Path.IsName n) : (p.join ⟨n⟩).extension? = (Path.cutName n).2 := by
  rw [Path.extension?, Path.fileName?_join h]
  rfl

theorem hasExtension_below (h : ∀ name ∈ names, Path.IsName name) (hne : names ≠ []) :
    (below p names).hasExtension ext = endsWith names ext := by
  induction names using List.reverseRecOn with
  | nil => exact absurd rfl hne
  | append_singleton front name _ =>
    have hname := h name (by simp)
    rw [below_append, Path.hasExtension, endsWith, List.getLast?_concat]
    exact congrArg (· == some ext) (extension?_join hname)

/-! ### Files in the whole tree -/

/-- There is a file at a place. -/
def HasFile (d : Disk) (P : Place) : Prop := ∃ content x, d.entry? P = some (.file content x)

theorem isPrefixOf?_eq_some_iff {α : Type} [DecidableEq α] {xs ys zs : List α} :
    xs.isPrefixOf? ys = some zs ↔ ys = xs ++ zs := by
  induction xs generalizing ys with
  | nil => simp [List.isPrefixOf?]
  | cons x xs ih =>
    cases ys with
    | nil => simp [List.isPrefixOf?]
    | cons y ys =>
      by_cases hxy : x = y
      · simp [List.isPrefixOf?, hxy, ih]
      · simp [List.isPrefixOf?, hxy, Ne.symm hxy]

theorem namesBelow?_eq_some_iff :
    namesBelow? F P = some names ↔ names ≠ [] ∧ P = F ++ names := by
  unfold namesBelow?
  cases hp : F.isPrefixOf? P with
  | none =>
    simp only [reduceCtorEq, false_iff, not_and]
    intro _ hP
    rw [isPrefixOf?_eq_some_iff.mpr hP] at hp
    cases hp
  | some found =>
    have hP := isPrefixOf?_eq_some_iff.mp hp
    subst hP
    cases found with
    | nil => simp
    | cons name rest =>
      simp only [Option.some.injEq, List.append_cancel_left_eq]
      constructor
      · rintro rfl
        simp
      · exact fun h => h.2

theorem canList_of_sound (h : d.Sound) (F : Place) (names : List String) :
    d.canList F names = true := by
  induction names generalizing F with
  | nil => rfl
  | cons name rest ih => simp [canList, h.trouble?, ih]

/-- The names of the files that a search sees. -/
theorem IsTree.mem_visibleFiles (h : d.IsTree) : names ∈ d.visibleFiles F ↔
    names ≠ [] ∧ d.HasFile (F ++ names) ∧ (∀ name ∈ names, isHidden name = false) ∧
      d.canList F names = true := by
  simp only [visibleFiles, List.mem_filterMap, Prod.exists, Option.bind_eq_bind,
    Option.bind_eq_some_iff, namesBelow?_eq_some_iff]
  constructor
  · rintro ⟨place, entry, hmem, found, ⟨hne, rfl⟩, hsome⟩
    obtain ⟨-, hentry⟩ := h.mem_iff.mp hmem
    cases entry with
    | folder => simp [isFileEntry] at hsome
    | file content x =>
      simp only [isFileEntry, Bool.true_and, Bool.and_eq_true, Bool.not_eq_eq_eq_not, Bool.not_true,
        List.any_eq_false, Bool.not_eq_true, Option.ite_none_right_eq_some,
        Option.some.injEq] at hsome
      obtain ⟨⟨hvisible, hlist⟩, rfl⟩ := hsome
      exact ⟨hne, ⟨content, x, hentry⟩, hvisible, hlist⟩
  · rintro ⟨hne, ⟨content, x, hentry⟩, hvisible, hlist⟩
    refine ⟨F ++ names, .file content x, h.mem_iff.mpr ⟨by simp [hne], hentry⟩, names,
      ⟨hne, rfl⟩, ?_⟩
    have hnone : names.any isHidden = false := List.any_eq_false.mpr fun name hname => by
      simp [hvisible name hname]
    simp [isFileEntry, hnone, hlist]

theorem IsTree.nodup_visibleFiles (h : d.IsTree) (F : Place) : (d.visibleFiles F).Nodup := by
  have hdistinct := List.pairwise_map.mp h.distinct
  refine List.pairwise_filterMap.mpr (hdistinct.imp ?_)
  rintro ⟨place, entry⟩ ⟨place', entry'⟩ hne names hnames names' hnames' rfl
  simp only [Option.bind_eq_bind, Option.bind_eq_some_iff, namesBelow?_eq_some_iff,
    Option.ite_none_right_eq_some, Option.some.injEq] at hnames hnames'
  obtain ⟨_, ⟨-, hplace⟩, -, rfl⟩ := hnames
  obtain ⟨_, ⟨-, hplace'⟩, -, rfl⟩ := hnames'
  exact hne (hplace.trans hplace'.symm)

theorem IsTree.isNames_of_hasFile (h : d.IsTree) (hf : d.HasFile (F ++ names)) :
    ∀ name ∈ names, Path.IsName name := by
  obtain ⟨content, x, hentry⟩ := hf
  intro name hname
  exact h.names (by rw [hentry]; simp) name (List.mem_append_right F hname)

theorem isNames_of_hasFile (h : d.Regular) (hf : d.HasFile (F ++ names)) :
    ∀ name ∈ names, Path.IsName name := h.tree.isNames_of_hasFile hf

/-- What a search collects, some folders perhaps not being listed. -/
theorem IsTree.mem_collect (h : d.IsTree) : q ∈ d.collect p ext ↔
    d.isFolder p = true ∧ ∃ F names, d.place? p = .ok F ∧ names ≠ [] ∧ d.HasFile (F ++ names) ∧
      (∀ name ∈ names, isHidden name = false) ∧ d.canList F names = true ∧
      endsWith names ext = true ∧ q = below p names := by
  rw [collect]
  by_cases hp : d.isFolder p = true
  · cases hplace : d.place? p with
    | error err => simp
    | ok F =>
      simp only [hp, Bool.not_true, Bool.false_eq_true, ↓reduceIte, Path.mem_sort,
        List.mem_filter, List.mem_map, h.mem_visibleFiles, true_and]
      constructor
      · rintro ⟨⟨names, ⟨hne, hfile, hvisible, hlist⟩, rfl⟩, hext⟩
        rw [hasExtension_below (h.isNames_of_hasFile hfile) hne] at hext
        exact ⟨F, names, rfl, hne, hfile, hvisible, hlist, hext, rfl⟩
      · rintro ⟨_, names, hplace', hne, hfile, hvisible, hlist, hext, rfl⟩
        cases hplace'
        refine ⟨⟨names, ⟨hne, hfile, hvisible, hlist⟩, rfl⟩, ?_⟩
        rw [hasExtension_below (h.isNames_of_hasFile hfile) hne]
        exact hext
  · simp [hp]

theorem mem_collect (h : d.Regular) : q ∈ d.collect p ext ↔
    ∃ F names, d.place? p = .ok F ∧ d.entry? F = some .folder ∧ names ≠ [] ∧
      d.HasFile (F ++ names) ∧ (∀ name ∈ names, isHidden name = false) ∧
      endsWith names ext = true ∧ q = below p names := by
  rw [h.tree.mem_collect, isFolder_iff h.sound]
  constructor
  · rintro ⟨⟨F, hplace, hF⟩, G, names, hG, hne, hfile, hvisible, -, hrest⟩
    cases hplace.symm.trans hG
    exact ⟨F, names, hplace, hF, hne, hfile, hvisible, hrest⟩
  · rintro ⟨F, names, hplace, hF, hne, hfile, hvisible, hrest⟩
    exact ⟨⟨F, hplace, hF⟩, F, names, hplace, hne, hfile, hvisible,
      canList_of_sound h.sound F names, hrest⟩

theorem pairwise_collect (d : Disk) (p : Path) (ext : String) :
    (d.collect p ext).Pairwise fun a b => a.le b = true := by
  rw [collect]
  split
  · exact .nil
  · split
    · exact .nil
    · exact Path.pairwise_sort _

theorem IsTree.nodup_collect (h : d.IsTree) (p : Path) (ext : String) :
    (d.collect p ext).Nodup := by
  rw [collect]
  split
  · exact List.nodup_nil
  · split
    · exact List.nodup_nil
    · rename_i F _
      refine (Path.sort_perm _).nodup_iff.mpr (List.Nodup.filter _ ?_)
      refine (h.nodup_visibleFiles F).map_on fun xs hx ys hy hxy => ?_
      exact below_injective (h.isNames_of_hasFile (h.mem_visibleFiles.mp hx).2.1)
        (h.isNames_of_hasFile (h.mem_visibleFiles.mp hy).2.1) (congrArg Path.components hxy)

theorem nodup_collect (h : d.Regular) (p : Path) (ext : String) : (d.collect p ext).Nodup :=
  h.tree.nodup_collect p ext

/-- Paths that one search collects differ in their components. -/
theorem IsTree.eq_of_mem_collect {q' : Path} (h : d.IsTree) (hq : q ∈ d.collect p ext)
    (hq' : q' ∈ d.collect p ext) (heq : q.components = q'.components) : q = q' := by
  obtain ⟨-, F, xs, -, -, hfile, -, -, -, rfl⟩ := h.mem_collect.mp hq
  obtain ⟨-, G, ys, -, -, hfile', -, -, -, rfl⟩ := h.mem_collect.mp hq'
  rw [below_injective (h.isNames_of_hasFile hfile) (h.isNames_of_hasFile hfile') heq]

/-- Searches agree on the paths that some test admits if these are collected by both or by none. -/
theorem IsTree.filter_collect_eq (hd : d.IsTree) (he : e.IsTree) (admits : Path → Bool)
    (hmem : ∀ q, admits q = true → (q ∈ e.collect p ext ↔ q ∈ d.collect p ext)) :
    (e.collect p ext).filter admits = (d.collect p ext).filter admits := by
  have hperm : ((e.collect p ext).filter admits).Perm ((d.collect p ext).filter admits) := by
    refine (List.perm_ext_iff_of_nodup ((he.nodup_collect p ext).filter _)
      ((hd.nodup_collect p ext).filter _)).mpr fun q => ?_
    rw [List.mem_filter, List.mem_filter]
    exact and_congr_left (hmem q)
  -- both lists are in order, and the order tells the paths of one search apart
  refine List.Perm.eq_of_pairwise ?_ ((pairwise_collect e p ext).filter _)
    ((pairwise_collect d p ext).filter _) hperm
  intro q q' hq hq' hle hle'
  exact hd.eq_of_mem_collect (List.mem_of_mem_filter (hperm.mem_iff.mp hq))
    (List.mem_of_mem_filter hq') (Path.leComponents_antisymm hle hle')

theorem eq_of_mem_collect {q' : Path} (h : d.Regular) (hq : q ∈ d.collect p ext)
    (hq' : q' ∈ d.collect p ext) (heq : q.components = q'.components) : q = q' :=
  h.tree.eq_of_mem_collect hq hq' heq

/-- A search is known by the paths that it collects. -/
theorem collect_eq_sort {paths : List Path} (h : d.Regular) (hnodup : paths.Nodup)
    (hmem : ∀ q, q ∈ d.collect p ext ↔ q ∈ paths) : d.collect p ext = Path.sort paths := by
  have hperm := (List.perm_ext_iff_of_nodup (nodup_collect h p ext) hnodup).mpr hmem
  refine List.Perm.eq_of_pairwise ?_ (pairwise_collect d p ext) (Path.pairwise_sort _)
    (hperm.trans (Path.sort_perm _).symm)
  intro q q' hq hq' hle hle'
  rw [Path.mem_sort, ← hmem] at hq'
  exact eq_of_mem_collect h hq hq' (Path.leComponents_antisymm hle hle')

/-- A search finds the same paths on two disks whose visible files with the extension have the
same names below the folder. -/
theorem collect_eq (hd : d.Regular) (he : e.Regular)
    (hfolder : ∀ F, d.place? p = .ok F ∧ d.entry? F = some .folder ↔
      e.place? p = .ok F ∧ e.entry? F = some .folder)
    (hfiles : ∀ F names, d.place? p = .ok F → names ≠ [] →
      (∀ name ∈ names, isHidden name = false) → endsWith names ext = true →
      (d.HasFile (F ++ names) ↔ e.HasFile (F ++ names))) :
    d.collect p ext = e.collect p ext := by
  have hmem (q : Path) : q ∈ d.collect p ext ↔ q ∈ e.collect p ext := by
    rw [mem_collect hd, mem_collect he]
    constructor
    · rintro ⟨F, names, hplace, hF, hne, hfile, hvisible, hext, rfl⟩
      obtain ⟨hplace', hF'⟩ := (hfolder F).mp ⟨hplace, hF⟩
      exact ⟨F, names, hplace', hF', hne, (hfiles F names hplace hne hvisible hext).mp hfile,
        hvisible, hext, rfl⟩
    · rintro ⟨F, names, hplace', hF', hne, hfile, hvisible, hext, rfl⟩
      obtain ⟨hplace, hF⟩ := (hfolder F).mpr ⟨hplace', hF'⟩
      exact ⟨F, names, hplace, hF, hne, (hfiles F names hplace hne hvisible hext).mpr hfile,
        hvisible, hext, rfl⟩
  simpa using he.tree.filter_collect_eq hd.tree (fun _ => true) fun q _ => hmem q

/-! ### Files of one folder -/

theorem childName?_eq_some_iff : childName? F P = some n ↔ P = F ++ [n] := by
  rw [childName?]
  constructor
  · intro h
    cases hlast : P.getLast? with
    | none => simp [hlast] at h
    | some last =>
      simp only [hlast, Option.ite_none_right_eq_some, Option.some.injEq] at h
      exact h.2 ▸ h.1
  · rintro rfl
    simp

theorem mem_children (h : d.Regular) {x : Entry} :
    (n, x) ∈ d.children F ↔ d.entry? (F ++ [n]) = some x := by
  simp only [children, List.mem_filterMap, Prod.exists, Option.map_eq_some_iff, Prod.mk.injEq,
    childName?_eq_some_iff]
  constructor
  · rintro ⟨place, entry, hmem, name, rfl, rfl, rfl⟩
    exact (h.tree.mem_iff.mp hmem).2
  · intro hx
    exact ⟨F ++ [n], x, h.tree.mem_iff.mpr ⟨by simp, hx⟩, n, rfl, rfl, rfl⟩

theorem nodup_children (h : d.Regular) (F : Place) : ((d.children F).map Prod.fst).Nodup := by
  have hdistinct := List.pairwise_map.mp h.tree.distinct
  refine List.pairwise_map.mpr (List.pairwise_filterMap.mpr (hdistinct.imp ?_))
  rintro ⟨place, entry⟩ ⟨place', entry'⟩ hne ⟨n, x⟩ hn ⟨n', x'⟩ hn' hnn
  simp only [Option.map_eq_some_iff, Prod.mk.injEq, childName?_eq_some_iff] at hn hn' hnn
  obtain ⟨_, rfl, rfl, rfl⟩ := hn
  obtain ⟨_, rfl, rfl, rfl⟩ := hn'
  exact hne (hnn ▸ rfl)

theorem list_eq_ok (h : d.Sound) {found : List (String × Entry)} : d.list p = .ok found ↔
    ∃ F, d.place? p = .ok F ∧ d.entry? F = some .folder ∧ found = d.children F := by
  rw [list]
  cases d.place? p with
  | error err => simp [bind, Except.bind]
  | ok F =>
    simp only [bind, Except.bind, h.trouble?, Except.ok.injEq, exists_eq_left']
    cases hF : d.entry? F with
    | none => simp
    | some entry => cases entry <;> simp [eq_comm]

theorem mem_listed (h : d.Regular) : q ∈ d.listed p ext ↔
    ∃ F n, d.place? p = .ok F ∧ d.entry? F = some .folder ∧ d.entry? (F ++ [n]) ≠ none ∧
      q = p.join ⟨n⟩ ∧ d.isFile q = true ∧ q.hasExtension ext = true := by
  rw [listed]
  cases hlist : d.list p with
  | error err =>
    simp only [List.not_mem_nil, false_iff, not_exists]
    rintro F n ⟨hplace, hF, -⟩
    rw [(list_eq_ok h.sound).mpr ⟨F, hplace, hF, rfl⟩] at hlist
    cases hlist
  | ok found =>
    obtain ⟨F, hplace, hF, rfl⟩ := (list_eq_ok h.sound).mp hlist
    simp only [Path.mem_sort, List.mem_filter, List.mem_map, Prod.exists, mem_children h,
      Bool.and_eq_true]
    constructor
    · rintro ⟨⟨n, x, hx, rfl⟩, hfile, hext⟩
      exact ⟨F, n, hplace, hF, by simp [hx], rfl, hfile, hext⟩
    · rintro ⟨_, n, hplace', -, hx, rfl, hfile, hext⟩
      rw [hplace] at hplace'
      cases hplace'
      obtain ⟨x, hx⟩ := Option.ne_none_iff_exists'.mp hx
      exact ⟨⟨n, x, hx, rfl⟩, hfile, hext⟩

theorem nodup_listed (h : d.Regular) (p : Path) (ext : String) : (d.listed p ext).Nodup := by
  rw [listed]
  cases hlist : d.list p with
  | error err => exact List.nodup_nil
  | ok found =>
    obtain ⟨F, -, -, rfl⟩ := (list_eq_ok h.sound).mp hlist
    refine (Path.sort_perm _).nodup_iff.mpr (List.Nodup.filter _ ?_)
    have hnames : ∀ n ∈ (d.children F).map Prod.fst, Path.IsName n := by
      intro n hn
      obtain ⟨⟨_, x⟩, hmem, rfl⟩ := List.mem_map.mp hn
      exact h.tree.isName (by rw [(mem_children h).mp hmem]; simp)
    rw [show (d.children F).map (fun entry => p.join ⟨entry.1⟩) =
      ((d.children F).map Prod.fst).map fun n => p.join ⟨n⟩ by rw [List.map_map]; rfl]
    refine (nodup_children h F).map_on fun m hm n hn heq => ?_
    have hcomponents := congrArg Path.components heq
    rw [Path.components_join (hnames m hm), Path.components_join (hnames n hn)] at hcomponents
    simpa using hcomponents

/-- A file that a joined path leads to lies in the folder. -/
theorem hasFile_of_isFile_join (h : d.Regular) (hn : Path.IsName n) (hp : d.place? p = .ok F)
    (hfile : d.isFile (p.join ⟨n⟩) = true) : d.HasFile (F ++ [n]) := by
  obtain ⟨P, content, x, hP, hx⟩ := (isFile_iff h.sound).mp hfile
  have hplain := (place?_eq_ok_iff.mp hp).1
  obtain ⟨G, hG, -, rfl⟩ := place?_join hn hplain.ne_empty hP
  rw [hp] at hG
  cases hG
  exact ⟨content, x, hx⟩

/-- The same files with the extension are listed where the same paths lead to files. -/
theorem listed_eq (hd : d.Regular) (he : e.Regular)
    (hfolder : ∀ F, d.place? p = .ok F ∧ d.entry? F = some .folder ↔
      e.place? p = .ok F ∧ e.entry? F = some .folder)
    (hfiles : ∀ n, Path.IsName n → (p.join ⟨n⟩).hasExtension ext = true →
      (d.isFile (p.join ⟨n⟩) = true ↔ e.isFile (p.join ⟨n⟩) = true)) :
    d.listed p ext = e.listed p ext := by
  by_cases hp : ∃ F, d.place? p = .ok F ∧ d.entry? F = some .folder
  · obtain ⟨F, hplace, hF⟩ := hp
    obtain ⟨hplace', hF'⟩ := (hfolder F).mp ⟨hplace, hF⟩
    have hlist := (list_eq_ok hd.sound).mpr ⟨F, hplace, hF, rfl⟩
    have hlist' := (list_eq_ok he.sound).mpr ⟨F, hplace', hF', rfl⟩
    simp only [listed, hlist, hlist']
    have hnames {x : Disk} (hx : x.Regular) : ∀ n ∈ (x.children F).map Prod.fst,
        Path.IsName n := by
      intro n hn
      obtain ⟨⟨_, entry⟩, hmem, rfl⟩ := List.mem_map.mp hn
      exact hx.tree.isName (by rw [(mem_children hx).mp hmem]; simp)
    have hmem {x : Disk} (hx : x.Regular) (hxp : x.place? p = .ok F) {n : String} :
        (n ∈ (x.children F).map Prod.fst ∧
          (x.isFile (p.join ⟨n⟩) && (p.join ⟨n⟩).hasExtension ext) = true) ↔
        Path.IsName n ∧ x.isFile (p.join ⟨n⟩) = true ∧
          (p.join ⟨n⟩).hasExtension ext = true := by
      rw [Bool.and_eq_true]
      refine ⟨fun ⟨hn, hok⟩ => ⟨hnames hx n hn, hok⟩, fun ⟨hn, hok⟩ => ⟨?_, hok⟩⟩
      obtain ⟨content, y, hy⟩ := hasFile_of_isFile_join hx hn hxp hok.1
      exact List.mem_map.mpr ⟨(n, _), (mem_children hx).mpr hy, rfl⟩
    have hcommute (x : Disk) : ((x.children F).map fun entry => p.join ⟨entry.1⟩).filter
        (fun q => x.isFile q && q.hasExtension ext) =
        (((x.children F).map Prod.fst).filter fun n =>
          x.isFile (p.join ⟨n⟩) && (p.join ⟨n⟩).hasExtension ext).map fun n => p.join ⟨n⟩ := by
      rw [List.filter_map, List.filter_map, List.map_map]
      rfl
    rw [hcommute d, hcommute e]
    refine Path.sort_eq_of_perm (List.Perm.map _ ?_) ?_
    · refine (List.perm_ext_iff_of_nodup ((nodup_children hd F).filter _)
        ((nodup_children he F).filter _)).mpr fun n => ?_
      rw [List.mem_filter, List.mem_filter, hmem hd hplace, hmem he hplace']
      refine and_congr_right fun hn => and_congr_left fun hext => hfiles n hn hext
    · simp only [List.mem_map (f := fun n : String => p.join ⟨n⟩), List.mem_filter,
        forall_exists_index, and_imp]
      rintro _ a ha - rfl _ b hb - rfl hsame
      rw [Path.components_join (hnames hd a ha), Path.components_join (hnames hd b hb)] at hsame
      have hab : Path.Component.name a = .name b :=
        List.singleton_inj.mp (List.append_inj_right' hsame rfl)
      cases hab
      rfl
  · have hnone {x : Disk} (hx : x.Sound)
        (hno : ¬∃ F, x.place? p = .ok F ∧ x.entry? F = some .folder) : x.listed p ext = [] := by
      rw [listed]
      cases hlist : x.list p with
      | error err => rfl
      | ok found =>
        obtain ⟨F, hF⟩ := (list_eq_ok hx).mp hlist
        exact absurd ⟨F, hF.1, hF.2.1⟩ hno
    have hp' : ¬∃ F, e.place? p = .ok F ∧ e.entry? F = some .folder := by
      rintro ⟨F, hF⟩
      exact hp ⟨F, (hfolder F).mpr hF⟩
    rw [hnone hd.sound hp, hnone he.sound hp']

end Disk

end LiveRules
