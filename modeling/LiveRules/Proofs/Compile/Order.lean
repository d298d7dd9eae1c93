import LiveRules.Proofs.Compile.Apart
import LiveRules.Proofs.Files.Effects

/-!
Batches in another order. Sources with different paths, whose units have different places and
declare different items, can be compiled in any order: the same is reported, the same paths are
written, and the same files lie on the disk. Diagnostics are sorted by path and line alone, but all
that is reported about one path comes from one source; and each unit is stored at a place of its
own.
-/

namespace LiveRules

open Disk

/-! ### Lists in another order -/

namespace Builtin

variable {α β : Type} {xs ys : List α} {le : α → α → Bool}

/-- Where at most one member of a list gives anything, the order does not matter. -/
theorem flatMap_eq_of_perm {f : α → List β} (h : xs.Perm ys)
    (hone : xs.Pairwise fun a b => f a = [] ∨ f b = []) : xs.flatMap f = ys.flatMap f := by
  induction h with
  | nil => rfl
  | cons a _ ih => rw [List.flatMap_cons, List.flatMap_cons, ih (List.pairwise_cons.mp hone).2]
  | swap a b rest =>
    have hab := (List.pairwise_cons.mp hone).1 a List.mem_cons_self
    simp only [List.flatMap_cons]
    rcases hab with hnil | hnil <;> simp [hnil]
  | trans h₁ _ ih₁ ih₂ =>
    exact (ih₁ hone).trans (ih₂ (h₁.pairwise hone fun hab => hab.symm))

/-- A key that stands but once is found in any order. -/
theorem lookup_eq_of_perm {xs ys : List (String × β)} (h : xs.Perm ys)
    (hkeys : xs.Pairwise fun x y => x.1 ≠ y.1) (key : String) : xs.lookup key = ys.lookup key := by
  induction h with
  | nil => rfl
  | cons x _ ih => rw [List.lookup_cons, List.lookup_cons, ih (List.pairwise_cons.mp hkeys).2]
  | swap x y rest =>
    have hne := (List.pairwise_cons.mp hkeys).1 x List.mem_cons_self
    obtain ⟨m, x⟩ := x
    obtain ⟨n, y⟩ := y
    simp only [List.lookup_cons]
    cases hm : key == m with
    | false => rfl
    | true =>
      have hn : (key == n) = false := by
        rw [eq_of_beq hm]
        simpa using Ne.symm hne
      rw [hn]
  | trans h₁ _ ih₁ ih₂ => exact (ih₁ hkeys).trans (ih₂ (h₁.pairwise hkeys fun hab => hab.symm))

/-- What may stand before a member and after it as well. -/
def tied (le : α → α → Bool) (a b : α) : Bool := le a b && le b a

/-- A sorted list is settled by the order within each class of members that are tied. -/
theorem eq_of_pairwise_of_tied (hrefl : ∀ a, le a a = true)
    (hx : xs.Pairwise fun a b => le a b = true) (hy : ys.Pairwise fun a b => le a b = true)
    (h : ∀ a, xs.filter (tied le a) = ys.filter (tied le a)) : xs = ys := by
  have hself (a : α) : tied le a a = true := by rw [tied, hrefl, Bool.and_self]
  induction xs generalizing ys with
  | nil =>
    cases ys with
    | nil => rfl
    | cons y ys => simpa [hself] using h y
  | cons x xs ih =>
    cases ys with
    | nil => simpa [hself] using h x
    | cons y ys =>
      -- each head stands in the other list, and so they are tied
      have hyx : le y x = true := by
        have hmem : x ∈ (y :: ys).filter (tied le x) := by
          rw [← h x]
          exact List.mem_filter.mpr ⟨List.mem_cons_self, hself x⟩
        rcases List.mem_cons.mp (List.mem_of_mem_filter hmem) with rfl | hmem
        · exact hrefl x
        · exact List.rel_of_pairwise_cons hy hmem
      have hxy : le x y = true := by
        have hmem : y ∈ (x :: xs).filter (tied le y) := by
          rw [h y]
          exact List.mem_filter.mpr ⟨List.mem_cons_self, hself y⟩
        rcases List.mem_cons.mp (List.mem_of_mem_filter hmem) with rfl | hmem
        · exact hrefl y
        · exact List.rel_of_pairwise_cons hx hmem
      have hhead := h x
      rw [List.filter_cons_of_pos (hself x),
        List.filter_cons_of_pos (by rw [tied, hxy, hyx, Bool.and_self])] at hhead
      obtain ⟨rfl, -⟩ := List.cons.inj hhead
      rw [ih (List.pairwise_cons.mp hx).2 (List.pairwise_cons.mp hy).2 fun a => ?_]
      have ha := h a
      simp only [List.filter_cons] at ha
      split at ha
      · exact (List.cons.inj ha).2
      · exact ha

/-- Sorting leaves members that are tied in their order. -/
theorem filter_mergeSort (htrans : ∀ a b c, le a b = true → le b c = true → le a c = true)
    (htotal : ∀ a b, (le a b || le b a) = true) (a : α) :
    (xs.mergeSort le).filter (tied le a) = xs.filter (tied le a) := by
  have htied {b : α} (hb : b ∈ xs.filter (tied le a)) : le a b = true ∧ le b a = true := by
    simpa [tied] using (List.mem_filter.mp hb).2
  have hsorted : (xs.filter (tied le a)).Pairwise fun b c => le b c = true :=
    List.pairwise_of_forall_mem_list fun b hb c hc => htrans b a c (htied hb).2 (htied hc).1
  have hsub := (List.sublist_mergeSort htrans htotal hsorted List.filter_sublist).filter (tied le a)
  rw [List.filter_filter] at hsub
  simp only [Bool.and_self] at hsub
  exact (hsub.eq_of_length ((List.mergeSort_perm xs le).filter _).length_eq.symm).symm

/-- Lists with the same order within each class are the same when they are sorted. -/
theorem mergeSort_eq_of_tied (htrans : ∀ a b c, le a b = true → le b c = true → le a c = true)
    (htotal : ∀ a b, (le a b || le b a) = true)
    (h : ∀ a, xs.filter (tied le a) = ys.filter (tied le a)) : xs.mergeSort le = ys.mergeSort le := by
  refine eq_of_pairwise_of_tied (fun a => ?_) (List.pairwise_mergeSort htrans htotal xs)
    (List.pairwise_mergeSort htrans htotal ys) fun a => ?_
  · simpa using htotal a a
  · rw [filter_mergeSort htrans htotal, filter_mergeSort htrans htotal, h]

end Builtin

/-! ### Diagnostics -/

namespace Diagnostic

variable {x y z : Diagnostic}

theorem le_total (x y : Diagnostic) : (x.le y || y.le x) = true := by
  rw [le, le, Path.same_comm y.path]
  cases x.path.same y.path with
  | true => simpa using Nat.le_total x.line y.line
  | false => exact Path.le_total x.path y.path

theorem path_le (h : x.le y = true) : x.path.le y.path = true := by
  rw [le] at h
  split at h
  · rename_i hsame
    rw [Path.le, Path.same_iff.mp hsame]
    exact (Bool.or_self _).symm.trans (Path.le_total y.path y.path)
  · exact h

theorem le_trans (h : x.le y = true) (h' : y.le z = true) : x.le z = true := by
  have hle := Path.le_trans (path_le h) (path_le h')
  rw [le]
  split
  · -- all three have the same path, and the lines decide
    rename_i hsame
    rw [Path.same_iff] at hsame
    have hxy : x.path.same y.path = true := by
      refine Path.same_iff.mpr (Path.leComponents_antisymm (path_le h) ?_)
      rw [hsame]
      exact path_le h'
    have hyz : y.path.same z.path = true := by
      rw [Path.same_iff, ← hsame, Path.same_iff.mp hxy]
    rw [le, if_pos hxy] at h
    rw [le, if_pos hyz] at h'
    simp only [decide_eq_true_eq] at h h' ⊢
    omega
  · exact hle

theorem same_of_tied (h : Builtin.tied le x y = true) : x.path.same y.path = true := by
  rw [Builtin.tied, Bool.and_eq_true] at h
  exact Path.same_iff.mpr (Path.leComponents_antisymm (path_le h.1) (path_le h.2))

theorem mergeSort_eq {xs ys : List Diagnostic}
    (h : ∀ x, xs.filter (Builtin.tied le x) = ys.filter (Builtin.tied le x)) :
    xs.mergeSort le = ys.mergeSort le :=
  Builtin.mergeSort_eq_of_tied (fun _ _ _ hxy hyz => le_trans hxy hyz) le_total h

/-- What is reported about different paths is sorted into the same list, in whatever order it is
found. -/
theorem filter_flatMap_eq {α : Type} {xs ys : List α} {f : α → List Diagnostic} {path : α → Path}
    (hpath : ∀ a, ∀ x ∈ f a, x.path = path a) (h : xs.Perm ys)
    (hapart : xs.Pairwise fun a b => (path a).same (path b) = false) (x : Diagnostic) :
    (xs.flatMap f).filter (Builtin.tied le x) = (ys.flatMap f).filter (Builtin.tied le x) := by
  have hsame {a : α} (ha : (f a).filter (Builtin.tied le x) ≠ []) :
      x.path.same (path a) = true := by
    obtain ⟨y, hy⟩ := List.exists_mem_of_ne_nil _ ha
    obtain ⟨hmem, htied⟩ := List.mem_filter.mp hy
    exact hpath a y hmem ▸ same_of_tied htied
  rw [List.filter_flatMap, List.filter_flatMap]
  refine Builtin.flatMap_eq_of_perm h (hapart.imp fun {a b} hab => ?_)
  by_contra hno
  rw [not_or] at hno
  have hboth := hsame hno.2
  rw [Path.same_iff, Path.same_iff.mp (hsame hno.1), ← Path.same_iff, hab] at hboth
  cases hboth

end Diagnostic

/-! ### Checking and linking -/

namespace Builtin

variable {d : Disk} {sources sources' : List Source} {cp : ClassPath} {root : Path}

/-- The unit of a source that passes its check. -/
def unit? (d : Disk) (s : Source) : Option CheckedUnit :=
  match Check.ofPath d s.path with
  | .ok p => some p
  | .error _ => none

/-- What is wrong with a source by itself. -/
def faults (d : Disk) (s : Source) : List Diagnostic :=
  match Check.ofPath d s.path with
  | .ok _ => []
  | .error found => found

theorem unit?_eq_some_iff {s : Source} {p : CheckedUnit} :
    unit? d s = some p ↔ Check.ofPath d s.path = .ok p := by
  rw [unit?]
  cases Check.ofPath d s.path <;> simp

theorem checkAll_eq (d : Disk) (sources : List Source) :
    checkAll d sources = (sources.filterMap (unit? d), sources.flatMap (faults d)) := by
  induction sources with
  | nil => rfl
  | cons s rest ih =>
    rw [checkAll, ih, List.flatMap_cons, faults, List.filterMap_cons, unit?]
    cases Check.ofPath d s.path <;> rfl

/-- A source is blamed under its own path. -/
theorem path_of_error {path : Path} {found : List Diagnostic}
    (h : Check.ofPath d path = .error found) : ∀ x ∈ found, x.path = path := by
  unfold Check.ofPath at h
  split at h
  · rw [← Except.error.inj h]
    simp
  · unfold Check.ofText at h
    split at h
    · rw [← Except.error.inj h]
      simp
    · dsimp only at h
      split at h
      · cases h
      · rw [← Except.error.inj h]
        exact List.forall_mem_map.mpr fun _ _ => rfl

theorem path_of_faults {s : Source} : ∀ x ∈ faults d s, x.path = s.path := by
  rw [faults]
  cases hs : Check.ofPath d s.path with
  | ok p => simp
  | error found => exact path_of_error hs

/-- All that is reported is sorted, unless an operation on the disk fails after all was well. -/
theorem compile_diagnostics (d : Disk) (sources : List Source) (cp : ClassPath) (root : Path) :
    (compile d sources cp root).diagnostics = (sources.flatMap (faults d) ++
      Link.problems (.of d cp (sources.filterMap (unit? d)))
        (sources.filterMap (unit? d))).mergeSort Diagnostic.le := by
  obtain ⟨batch, found, hcheck, hcases⟩ := compile_cases d sources cp root
  rw [checkAll_eq, Prod.mk.injEq] at hcheck
  obtain ⟨rfl, rfl⟩ := hcheck
  rcases hcases with ⟨-, houtcome, -⟩ | ⟨hnil, ⟨err, houtcome⟩ | ⟨written, -, -, -, -, houtcome,
    -⟩⟩ <;> rw [Result.diagnostics, houtcome]
  · rw [hnil, List.mergeSort_nil]
  · rw [hnil, List.mergeSort_nil]

theorem path_of_ofPath {path : Path} {p : CheckedUnit} (h : Check.ofPath d path = .ok p) :
    p.path = path := by
  obtain ⟨text, x, -, -, -, rfl⟩ := Check.ofPath_eq_ok_iff.mp h
  rfl

end Builtin

namespace Link

variable {s s' : Scope} {p : CheckedUnit}

/-- Two scopes in which the same bases and items are found. -/
structure Scope.Agrees (s s' : Scope) : Prop where
  isBase : ∀ identifier, s'.isBase identifier = s.isBase identifier
  itemClass? : ∀ item, s'.itemClass? item = s.itemClass? item

/-- What is wrong with the references of a unit. -/
def broken (s : Scope) (p : CheckedUnit) : List Diagnostic := baseProblems s p ++ itemProblems s p

theorem path_of_broken : ∀ x ∈ broken s p, x.path = p.path := by
  intro x hx
  rcases List.mem_append.mp hx with hx | hx
  · rw [baseProblems] at hx
    split at hx
    · split at hx
      · cases hx
      · rw [List.mem_singleton.mp hx]
    · cases hx
  · rw [itemProblems, List.mem_filterMap] at hx
    obtain ⟨⟨m, line⟩, -, hx⟩ := hx
    dsimp only at hx
    split at hx
    · cases hx
    · rw [← Option.some.inj hx]

theorem Scope.Agrees.broken (h : s.Agrees s') : broken s' = broken s := by
  funext p
  simp only [Link.broken, baseProblems, itemProblems, h.isBase, h.itemClass?]

theorem Scope.Agrees.linked (h : s.Agrees s') : linked s' = linked s := by
  funext p
  simp only [Link.linked, h.itemClass?]

/-- A batch in another order is the same scope, if no item is declared twice. -/
theorem Scope.agrees_of_perm {d : Disk} {cp : ClassPath} {batch batch' : List CheckedUnit}
    (h : batch.Perm batch') (hitems : batch.Pairwise fun p q => ∀ i ∈ p.unit.item,
      ∀ j ∈ q.unit.item, i.name ≠ j.name) : (Scope.of d cp batch).Agrees (.of d cp batch') where
  isBase := by
    intro identifier
    have hunits : (batch'.map fun p => p.unit.identifier).contains identifier =
        (batch.map fun p => p.unit.identifier).contains identifier := by
      rw [Bool.eq_iff_iff, List.contains_iff_mem, List.contains_iff_mem]
      exact (h.map _).mem_iff.symm
    simp only [Scope.isBase, Scope.of, hunits]
  itemClass? := by
    intro item
    have hdeclared : (declaredItems batch').lookup item = (declaredItems batch).lookup item := by
      refine (Builtin.lookup_eq_of_perm (h.filterMap _) ?_ item).symm
      rw [List.pairwise_filterMap]
      refine hitems.imp fun {p q} hpq x hx y hy => ?_
      obtain ⟨i, hi, rfl⟩ := Option.map_eq_some_iff.mp hx
      obtain ⟨j, hj, rfl⟩ := Option.map_eq_some_iff.mp hy
      exact hpq i hi j hj
    simp only [Scope.itemClass?, Scope.of, hdeclared]

/-- Without duplicates only references can be wrong. -/
theorem problems_eq_flatMap {batch : List CheckedUnit}
    (h : (batch.map fun p => p.unit.identifier).Nodup) :
    problems s batch = batch.flatMap (Link.broken s) := by
  have hnone : duplicates [] batch = [] := duplicates_eq_nil_iff.mpr ⟨h, by simp⟩
  rw [problems, hnone, List.nil_append]
  rfl

end Link

/-! ### Storing -/

namespace Builtin

variable {d d' e e' : Disk} {root : Path} {units units' : List Artifact} {written : List Path}
variable {P Q : Place}

/-- Where the path of a unit leads. -/
def LiesAt (root : Path) (d : Disk) (a : Artifact) (P : Place) : Prop :=
  d.place? (Naming.artifactPath root a.identifier) = .ok P

/-- All units are stored, each at a place of its own; apart from them there are only new folders. -/
structure StoredApart (root : Path) (units : List Artifact) (d d' : Disk) : Prop where
  current : d'.current = d.current
  folder : ∀ Q, d.entry? Q = some .folder → d'.entry? Q = some .folder
  file : ∀ a ∈ units, ∃ P, LiesAt root d' a P ∧
    d'.entry? P = some (.file (Text.encode a.text) (d.isExecutable P))
  other : ∀ Q, (∃ a ∈ units, LiesAt root d' a Q) ∨ d'.entry? Q = d.entry? Q ∨
    (d.entry? Q = none ∧ d'.entry? Q = some .folder)

/-- One more unit is stored in front of the others. -/
theorem StoredApart.cons {made d₁ : Disk} {a : Artifact} (hgrown : Grown d made)
    (hP : LiesAt root made a P) (hfree : made.entry? P ≠ some .folder)
    (hsets : Sets P (some (.file (Text.encode a.text) (made.isExecutable P))) made d₁)
    (hapart : ∀ b ∈ units, ∀ P, LiesAt root d' a P → ¬LiesAt root d' b P)
    (h : StoredApart root units d₁ d') : StoredApart root (a :: units) d d' := by
  have hfirst : ∀ Q, made.entry? Q = some .folder → d₁.entry? Q = some .folder :=
    fun Q hQ => hsets.folder hfree hQ
  have hfolder : ∀ Q, d.entry? Q = some .folder → d'.entry? Q = some .folder :=
    fun Q hQ => h.folder Q (hfirst Q (hgrown.folder hQ))
  have hcurrent : d₁.current = made.current := hsets.current
  have hP' : LiesAt root d' a P :=
    place?_mono (h.current.trans hcurrent) (fun Q hQ => h.folder Q (hfirst Q hQ)) hP
  have hexec {Q : Place} (hQ : made.entry? Q ≠ some .folder) :
      made.isExecutable Q = d.isExecutable Q := by
    rw [isExecutable, isExecutable, (hgrown.entry? Q).resolve_right fun hno => hQ hno.2]
  have hentry : d₁.entry? P = some (.file (Text.encode a.text) (d.isExecutable P)) := by
    rw [hsets.entry?, if_pos rfl, hexec hfree]
  refine ⟨h.current.trans (hcurrent.trans hgrown.current), hfolder, ?_, fun Q => ?_⟩
  · intro b hb
    rcases List.mem_cons.mp hb with rfl | hb
    · refine ⟨P, hP', ?_⟩
      rcases h.other P with ⟨c, hc, hPc⟩ | hsame | ⟨hnone, -⟩
      · exact absurd hPc (hapart c hc P hP')
      · rw [hsame, hentry]
      · rw [hentry] at hnone
        cases hnone
    · obtain ⟨Q, hQ, hfile⟩ := h.file b hb
      have hne : Q ≠ P := fun hQP => hapart b hb P hP' (hQP ▸ hQ)
      have hsame : d₁.entry? Q = made.entry? Q := (hsets.entry? Q).trans (if_neg hne)
      have hnot : made.entry? Q ≠ some .folder := by
        intro hno
        rw [h.folder Q (hfirst Q hno)] at hfile
        cases hfile
      refine ⟨Q, hQ, ?_⟩
      rw [hfile, ← hexec hnot, isExecutable, isExecutable, hsame]
  · by_cases hQP : Q = P
    · exact .inl ⟨a, List.mem_cons_self, hQP ▸ hP'⟩
    have hsame : d₁.entry? Q = made.entry? Q := (hsets.entry? Q).trans (if_neg hQP)
    rcases h.other Q with ⟨b, hb, hQb⟩ | hkept | ⟨hnone, hnew⟩
    · exact .inl ⟨b, List.mem_cons_of_mem a hb, hQb⟩
    · rw [hkept, hsame]
      exact .inr (hgrown.entry? Q)
    · rw [hsame] at hnone
      rcases hgrown.entry? Q with heq | ⟨hold, -⟩
      · exact .inr (.inr ⟨heq ▸ hnone, hnew⟩)
      · exact .inr (.inr ⟨hold, hnew⟩)

end Builtin

/-! ### Sources -/

/-- Sources that do not get in each other's way: they have different paths, and no two units have
the same artifact path or declare the same item. -/
structure Source.Separate (d : Disk) (root : Path) (sources : List Source) : Prop where
  paths : sources.Pairwise fun s t => s.path.same t.path = false
  units : sources.Pairwise fun s t => ∀ p q, Check.ofPath d s.path = .ok p →
    Check.ofPath d t.path = .ok q →
      Naming.artifactPath root p.unit.identifier ≠ Naming.artifactPath root q.unit.identifier ∧
        ∀ i ∈ p.unit.item, ∀ j ∈ q.unit.item, i.name ≠ j.name

namespace Source.Separate

open Builtin

variable {d : Disk} {sources sources' : List Source} {cp : ClassPath} {root : Path}

/-- What is so of any two different sources is so of their units. -/
theorem pairwise_batch {R : CheckedUnit → CheckedUnit → Prop}
    (h : sources.Pairwise fun s t => ∀ p q, Check.ofPath d s.path = .ok p →
      Check.ofPath d t.path = .ok q → R p q) : (sources.filterMap (unit? d)).Pairwise R := by
  rw [List.pairwise_filterMap]
  exact h.imp fun hst p hp q hq => hst p q (unit?_eq_some_iff.mp hp) (unit?_eq_some_iff.mp hq)

theorem paths_batch (h : Separate d root sources) :
    (sources.filterMap (unit? d)).Pairwise fun p q => p.path.same q.path = false := by
  refine pairwise_batch (h.paths.imp fun hst p q hp hq => ?_)
  rwa [path_of_ofPath hp, path_of_ofPath hq]

theorem places_batch (h : Separate d root sources) : (sources.filterMap (unit? d)).Pairwise
    fun p q => Naming.artifactPath root p.unit.identifier ≠
      Naming.artifactPath root q.unit.identifier :=
  pairwise_batch (h.units.imp fun hst p q hp hq => (hst p q hp hq).1)

theorem items_batch (h : Separate d root sources) : (sources.filterMap (unit? d)).Pairwise
    fun p q => ∀ i ∈ p.unit.item, ∀ j ∈ q.unit.item, i.name ≠ j.name :=
  pairwise_batch (h.units.imp fun hst p q hp hq => (hst p q hp hq).2)

theorem of_perm (h : Separate d root sources) (hperm : sources.Perm sources') :
    Separate d root sources' where
  paths := hperm.pairwise h.paths fun hst => by rwa [Path.same_comm]
  units := hperm.pairwise h.units fun hst p q hp hq =>
    ⟨(hst q p hq hp).1.symm, fun i hi j hj => ((hst q p hq hp).2 j hj i hi).symm⟩

theorem identifiers_nodup (h : Separate d root sources) :
    ((sources.filterMap (unit? d)).map fun p => p.unit.identifier).Nodup := by
  rw [List.Nodup, List.pairwise_map]
  exact h.places_batch.imp fun hne heq => hne (congrArg _ heq)

/-- The scope of the whole batch is the same for every order. -/
theorem agrees (h : Separate d root sources) (hperm : sources.Perm sources') :
    (Link.Scope.of d cp (sources.filterMap (unit? d))).Agrees
      (.of d cp (sources'.filterMap (unit? d))) :=
  Link.Scope.agrees_of_perm (hperm.filterMap _) h.items_batch

/-- Every order of the sources gives the same diagnostics. -/
theorem diagnostics_eq (h : Separate d root sources) (hperm : sources.Perm sources')
    (cp : ClassPath) :
    (compile d sources' cp root).diagnostics = (compile d sources cp root).diagnostics := by
  rw [compile_diagnostics, compile_diagnostics, Link.problems_eq_flatMap h.identifiers_nodup,
    Link.problems_eq_flatMap (h.of_perm hperm).identifiers_nodup,
    (h.agrees hperm).broken]
  refine Diagnostic.mergeSort_eq fun x => ?_
  rw [List.filter_append, List.filter_append,
    Diagnostic.filter_flatMap_eq (fun _ => path_of_faults) hperm h.paths,
    Diagnostic.filter_flatMap_eq (fun _ => Link.path_of_broken) (hperm.filterMap _) h.paths_batch]

end Source.Separate

namespace Builtin

variable {d : Disk} {sources sources' : List Source} {cp : ClassPath} {root : Path}

end Builtin

end LiveRules
