import LiveRules.Load.Report
import LiveRules.Proofs.Compile.Language
import LiveRules.Proofs.Compile.Beside

/-!
Batches of rules. A pass over all rules either leaves the disk as it is after the old units are
removed, or checks, links and stores every source. What it makes of a batch depends on the texts
of the sources and on the packs of the class path; packs at the end of the class path that nothing
asks for do not matter.
-/

namespace LiveRules

open Disk

variable {d d₁ d₂ e : Disk} {sources : List Source} {batch : List CheckedUnit} {c : Config}

theorem CompileError.exists_clean {x : Except CompileError Outcome}
    (h : x.toOption.map (·.diagnostics) = some []) : ∃ o, x = .ok o ∧ o.diagnostics = [] := by
  obtain ⟨o, ho, hclean⟩ := Option.map_eq_some_iff.mp h
  cases x with
  | error e => cases ho
  | ok o' => exact ⟨o', rfl, Option.some.inj ho ▸ hclean⟩

namespace Builtin

/-! ### Checked sources -/

theorem checkAll_eq_of_readText (h : ∀ s ∈ sources, e.readText s.path = d.readText s.path) :
    checkAll e sources = checkAll d sources := by
  induction sources with
  | nil => rfl
  | cons s rest ih =>
    rw [checkAll, checkAll, ih fun q hq => h q (List.mem_cons_of_mem s hq), Check.ofPath,
      Check.ofPath, h s List.mem_cons_self]

/-- Without complaints every source makes one unit of the batch. -/
theorem forall₂_of_checkAll (h : checkAll d sources = (batch, [])) :
    List.Forall₂ (fun s p => Check.ofPath d s.path = .ok p) sources batch := by
  induction sources generalizing batch with
  | nil =>
    simp only [checkAll, Prod.mk.injEq] at h
    rw [← h.1]
    exact .nil
  | cons s rest ih =>
    rcases hrest : checkAll d rest with ⟨units, found⟩
    cases hs : Check.ofPath d s.path with
    | error why =>
      simp only [checkAll, hrest, hs, Prod.mk.injEq, List.append_eq_nil_iff] at h
      exact absurd h.2.1 (Check.ofPath_error_ne_nil hs)
    | ok p =>
      simp only [checkAll, hrest, hs, Prod.mk.injEq] at h
      obtain ⟨rfl, rfl⟩ := h
      exact .cons hs (ih hrest)

theorem exists_of_forall₂_left {α β : Type} {R : α → β → Prop} {xs : List α} {ys : List β}
    (h : List.Forall₂ R xs ys) : ∀ x ∈ xs, ∃ y ∈ ys, R x y := by
  induction h with
  | nil => simp
  | cons hr _ ih =>
    intro x hx
    rcases List.mem_cons.mp hx with rfl | hx
    · exact ⟨_, List.mem_cons_self, hr⟩
    · obtain ⟨y, hy, hxy⟩ := ih x hx
      exact ⟨y, List.mem_cons_of_mem _ hy, hxy⟩

theorem exists_of_forall₂_right {α β : Type} {R : α → β → Prop} {xs : List α} {ys : List β}
    (h : List.Forall₂ R xs ys) : ∀ y ∈ ys, ∃ x ∈ xs, R x y :=
  exists_of_forall₂_left h.flip

theorem readable_of_checkAll (h : checkAll d sources = (batch, [])) :
    ∀ s ∈ sources, ∃ text, d.readText s.path = .ok text := by
  intro s hs
  obtain ⟨p, -, hp⟩ := exists_of_forall₂_left (forall₂_of_checkAll h) s hs
  obtain ⟨text, x, htext, -⟩ := Check.ofPath_eq_ok_iff.mp hp
  exact ⟨text, htext⟩

theorem no_slash_of_isProper {path : Path} {text : String} {x : Declaration}
    (h : x.IsProper path.stem) : '/' ∉ (Check.checked path text x).unit.identifier.toList := by
  obtain ⟨m, hm, hnamespace⟩ := h.package
  have hpackage := Naming.not_mem_of_isNamespace (c := '/') (by decide) (by decide) hnamespace
  simp only [Check.checked, Check.unitOf, hm, Option.elim_some, String.toList_append,
    List.mem_append, not_or]
  exact ⟨⟨hpackage, by decide⟩, path.no_slash_stem⟩

theorem no_slash_of_checkAll (h : checkAll d sources = (batch, [])) :
    ∀ p ∈ batch, '/' ∉ p.unit.identifier.toList := by
  intro p hp
  obtain ⟨s, -, hs⟩ := exists_of_forall₂_right (forall₂_of_checkAll h) p hp
  obtain ⟨text, x, -, -, hproper, rfl⟩ := Check.ofPath_eq_ok_iff.mp hs
  exact no_slash_of_isProper hproper

theorem length_itemLines (h : checkAll d sources = (batch, [])) :
    ∀ p ∈ batch, p.itemLines.length = p.unit.methods.length := by
  obtain ⟨xs, hxs⟩ := checkAll_snd_eq_nil_iff.mp (congrArg Prod.snd h)
  obtain ⟨batch', hbatch', hdescribes⟩ := checkAll_of_declares hxs
  obtain rfl : batch = batch' := congrArg Prod.fst (h.symm.trans hbatch')
  exact hdescribes.lines

end Builtin

/-! ### Class paths of packs -/

namespace ClassPath

variable {cp more : ClassPath} {identifier : String}

/-- A class path without folders. -/
def IsPacked (cp : ClassPath) : Prop := ∀ entry ∈ cp, ∃ path content, entry = .pack path content

theorem IsPacked.append (h : IsPacked cp) (h' : IsPacked more) : IsPacked (cp ++ more) := by
  intro entry hentry
  exact (List.mem_append.mp hentry).elim (h entry) (h' entry)

theorem IsPacked.find?_eq (h : IsPacked cp) : cp.find? e identifier = cp.find? d identifier := by
  induction cp with
  | nil => rfl
  | cons entry rest ih =>
    obtain ⟨path, content, rfl⟩ := h entry List.mem_cons_self
    rw [find?, find?, ih fun q hq => h q (List.mem_cons_of_mem _ hq)]
    rfl

theorem IsPacked.items_eq (h : IsPacked cp) : cp.items e = cp.items d := by
  refine List.flatMap_congr fun entry hentry => ?_
  obtain ⟨path, content, rfl⟩ := h entry hentry
  rfl

/-- What the entries before have comes first, be it a unit or a file that cannot be read. -/
theorem find?_append_of_ne (h : cp.find? d identifier ≠ .ok none) :
    (cp ++ more).find? d identifier = cp.find? d identifier := by
  induction cp with
  | nil => exact absurd rfl h
  | cons entry rest ih =>
    rw [find?] at h ⊢
    rw [List.cons_append, find?]
    cases hentry : entry.find? d identifier with
    | error e => rfl
    | ok found =>
      cases found with
      | some a => rfl
      | none =>
        rw [hentry] at h
        exact ih h

theorem find?_append_of_ok {a : Artifact} (h : cp.find? d identifier = .ok (some a)) :
    (cp ++ more).find? d identifier = .ok (some a) := by
  rw [find?_append_of_ne (by simp [h]), h]

theorem IsPacked.contains_mono (h : IsPacked cp) (hc : cp.contains d identifier = true) :
    (cp ++ more).contains e identifier = true := by
  rw [contains, ← h.find?_eq (e := e)] at hc
  rw [contains]
  cases hfind : cp.find? e identifier with
  | error err => simp [hfind] at hc
  | ok found =>
    cases found with
    | none => simp [hfind] at hc
    | some a => rw [find?_append_of_ok hfind]

theorem lookup_append_of_some {α : Type} {xs ys : List (String × α)} {key : String} {x : α}
    (h : xs.lookup key = some x) : (xs ++ ys).lookup key = some x := by
  rw [List.lookup_append, h]
  rfl

end ClassPath

/-! ### Linking against more packs -/

namespace Link

/-- A scope that knows all that another one knows, and agrees with it. -/
structure Scope.Knows (s t : Scope) : Prop where
  units : t.units = s.units
  batchItems : t.batchItems = s.batchItems
  hasUnit : ∀ identifier, s.hasUnit identifier = true → t.hasUnit identifier = true
  findItem? : ∀ item identifier, s.findItem? item = some identifier →
    t.findItem? item = some identifier

theorem scope_knows {cp more : ClassPath} (h : cp.IsPacked) (batch : List CheckedUnit) :
    (Scope.of d cp batch).Knows (.of e (cp ++ more) batch) where
  units := rfl
  batchItems := rfl
  hasUnit _ hc := h.contains_mono hc
  findItem? item identifier hi := by
    change List.lookup item (ClassPath.items e (cp ++ more)) = some identifier
    rw [ClassPath.items, List.flatMap_append]
    refine ClassPath.lookup_append_of_some ?_
    change List.lookup item (cp.items e) = _
    rw [h.items_eq (d := d)]
    exact hi

variable {s t : Scope}

theorem Scope.Knows.itemClass? (h : s.Knows t) {item identifier : String}
    (hi : s.itemClass? item = some identifier) : t.itemClass? item = some identifier := by
  rw [Scope.itemClass?, Option.or_eq_some_iff] at hi ⊢
  rw [h.batchItems]
  exact hi.imp id fun hi => ⟨hi.1, h.findItem? item identifier hi.2⟩

/-- A batch of units that declare items, without rules and without a base. -/
def IsItems (batch : List CheckedUnit) : Prop :=
  ∀ p ∈ batch, p.unit.kind = .item ∧ p.unit.extends? = none ∧ p.unit.methods = []

/-- Such a batch refers to nothing, so nothing is wrong with it if its identifiers differ. -/
theorem IsItems.problems_eq_nil (h : IsItems batch)
    (hdistinct : (batch.map fun p => p.unit.identifier).Nodup) (s : Scope) :
    problems s batch = [] := by
  rw [problems, List.append_eq_nil_iff, duplicates_eq_nil_iff, List.flatMap_eq_nil_iff]
  refine ⟨⟨hdistinct, by simp⟩, fun p hp => ?_⟩
  obtain ⟨-, hbase, hmethods⟩ := h p hp
  rw [baseProblems, itemProblems, hbase, hmethods]
  rfl

/-- A rule of a batch refers to an item. -/
def Refers (batch : List CheckedUnit) (item : String) : Prop :=
  ∃ p ∈ batch, ∃ m ∈ p.unit.methods, m.item = item

/-- What one scope answers to a batch another one answers, wherever it knows it from. -/
structure Scope.Answers (s t : Scope) (batch : List CheckedUnit) : Prop where
  isBase : ∀ identifier, s.isBase identifier = true → t.isBase identifier = true
  itemClass? : ∀ item identifier, Refers batch item → s.itemClass? item = some identifier →
    t.itemClass? item = some identifier

theorem Scope.Knows.answers (h : s.Knows t) (batch : List CheckedUnit) : s.Answers t batch where
  isBase := fun base hs => by
    rw [Scope.isBase, Bool.or_eq_true] at hs ⊢
    rw [h.units]
    exact hs.imp id (h.hasUnit base)
  itemClass? := fun _ _ _ => h.itemClass?

theorem problems_mono (h : s.Answers t batch) (hp : problems s batch = []) :
    problems t batch = [] := by
  rw [problems, List.append_eq_nil_iff, List.flatMap_eq_nil_iff] at hp ⊢
  refine ⟨hp.1, fun p hmem => ?_⟩
  obtain ⟨hbase, hitem⟩ := List.append_eq_nil_iff.mp (hp.2 p hmem)
  rw [List.append_eq_nil_iff]
  constructor
  · rw [baseProblems_eq_nil_iff] at hbase ⊢
    exact fun base hb => h.isBase base (hbase base hb)
  · rw [itemProblems, List.filterMap_eq_nil_iff] at hitem ⊢
    rintro ⟨m, line⟩ hm
    have hs := hitem (m, line) hm
    dsimp only at hs ⊢
    cases hi : s.itemClass? m.item with
    | none => simp [hi] at hs
    | some identifier =>
      rw [h.itemClass? _ _ ⟨p, hmem, m, (List.of_mem_zip hm).1, rfl⟩ hi]

/-- Where nothing is missing, every item of a method is known. -/
theorem itemClass?_of_problems (hp : problems s batch = []) {p : CheckedUnit} (hmem : p ∈ batch)
    (hlines : p.itemLines.length = p.unit.methods.length) :
    ∀ m ∈ p.unit.methods, ∃ identifier, s.itemClass? m.item = some identifier := by
  rw [problems, List.append_eq_nil_iff, List.flatMap_eq_nil_iff] at hp
  have hitem := (List.append_eq_nil_iff.mp (hp.2 p hmem)).2
  rw [itemProblems_eq_nil_iff hlines, List.forall_mem_map] at hitem
  intro m hm
  exact Option.isSome_iff_exists.mp (hitem m hm)

theorem linked_eq (h : s.Answers t batch) (hp : problems s batch = [])
    (hlines : ∀ p ∈ batch, p.itemLines.length = p.unit.methods.length) :
    batch.map (linked t) = batch.map (linked s) := by
  refine List.map_congr_left fun p hmem => ?_
  rw [linked, linked]
  congr 1
  refine List.map_congr_left fun m hm => ?_
  obtain ⟨identifier, hi⟩ := itemClass?_of_problems hp hmem (hlines p hmem) m hm
  rw [hi, h.itemClass? _ _ ⟨p, hmem, m, hm, rfl⟩ hi]

end Link

/-! ### The class paths of a configuration -/

namespace Pass

/-- The pack at a path, if it can be read. -/
def packAt (d : Disk) (p : Path) : ClassPath :=
  match Pack.read d p with
  | .ok pack => [.pack p pack]
  | .error _ => []

def runtimePack (d : Disk) (c : Config) : Pack :=
  match Pack.read d c.runtimePack with
  | .ok pack => pack
  | .error _ => Pack.runtime

theorem isThere_of_readPack {p : Path} {pack : Pack} (h : d.Sound)
    (hp : Pack.read d p = .ok pack) : d.isThere p = true := by
  rw [Pack.read, Disk.readText] at hp
  cases hread : d.read p with
  | error err => simp [hread, bind, Except.bind] at hp
  | ok content =>
    obtain ⟨P, x, hP, hx⟩ := (read_eq_ok_iff h).mp hread
    exact (isThere_iff h).mpr ⟨P, hP, by rw [hx]; simp⟩

theorem fst_addItems (h : d.Sound) (x : Assembled) :
    (addItems d c x).1 = x.1 ++ packAt d c.itemsPack := by
  rw [addItems, packAt]
  cases hread : Pack.read d c.itemsPack with
  | ok pack => simp [isThere_of_readPack h hread]
  | error err => split <;> simp

theorem fst_addRuntime (x : Assembled) :
    (addRuntime d c x).1 = x.1 ++ [.pack c.runtimePack (runtimePack d c)] := by
  rw [addRuntime, runtimePack]
  cases Pack.read d c.runtimePack <;> rfl

theorem fst_addExtlibs (x : Assembled) : (addExtlibs d c x).1 =
    x.1 ++ (d.listed c.folders.extlib Naming.packExtension).flatMap (packAt d) := by
  rw [addExtlibs]
  induction d.listed c.folders.extlib Naming.packExtension generalizing x with
  | nil => simp
  | cons p rest ih =>
    have hone : (addExtlib d x p).1 = x.1 ++ packAt d p := by
      rw [addExtlib, packAt]
      cases Pack.read d p <;> simp
    rw [List.foldl_cons, ih, hone, List.flatMap_cons, List.append_assoc]

theorem fst_rulesPath (h : d.Sound) : (rulesPath d c).1 =
    (packAt d c.itemsPack ++ [.pack c.runtimePack (runtimePack d c)]) ++
      (d.listed c.folders.extlib Naming.packExtension).flatMap (packAt d) := by
  rw [rulesPath, fst_addExtlibs, fst_addRuntime, fst_addItems h, List.nil_append]

/-- Rules are loaded over the class path that they are compiled against, their own folder in
front. -/
theorem fst_loaderPath (h : d.Sound) :
    (loaderPath d c).1 = .folder c.folders.ruleClasses :: (rulesPath d c).1 := by
  rw [fst_rulesPath h, loaderPath, fst_addExtlibs, fst_addRuntime, fst_addItems h]
  rfl

theorem isPacked_packAt (p : Path) : ClassPath.IsPacked (packAt d p) := by
  rw [packAt]
  cases Pack.read d p with
  | ok pack =>
    intro entry hentry
    exact ⟨p, pack, List.mem_singleton.mp hentry⟩
  | error err => simp [ClassPath.IsPacked]

theorem isPacked_front : ClassPath.IsPacked
    (packAt d c.itemsPack ++ [.pack c.runtimePack (runtimePack d c)]) :=
  (isPacked_packAt _).append fun _ hentry => ⟨_, _, List.mem_singleton.mp hentry⟩

theorem isPacked_flatMap (paths : List Path) :
    ClassPath.IsPacked (paths.flatMap (packAt d)) := by
  intro entry hentry
  obtain ⟨p, -, hp⟩ := List.mem_flatMap.mp hentry
  exact isPacked_packAt p entry hp

theorem isPacked_rulesPath (h : d.Sound) : ClassPath.IsPacked (rulesPath d c).1 := by
  rw [fst_rulesPath h]
  exact isPacked_front.append (isPacked_flatMap _)

/-! ### The pass over all rules -/

/-- The sources of all rules. -/
abbrev ruleSources (d : Disk) (c : Config) : List Source := Source.scanTree d c.folders.rules

/-- What is left of the pass when the old units are gone. -/
def compileAfresh (c : Config) (d : Disk) : Except CompileError Outcome × Disk :=
  if (ruleSources d c).isEmpty then (.ok {}, d)
  else
    let x := Builtin.compile d (ruleSources d c) (rulesPath d c).1 c.folders.ruleClasses
    (x.outcome, x.disk)

theorem compileRules_builtin (c : Config) (d : Disk) :
    ((compileRules .builtin c d).outcome, (compileRules .builtin c d).disk) =
      match removeUnits d c.folders.ruleClasses with
      | (.error e, d) => (.error e, d)
      | (.ok _, d) => compileAfresh c d := by
  rw [compileRules]
  rcases removeUnits d c.folders.ruleClasses with ⟨err | n, d₁⟩
  · rfl
  · dsimp only
    rw [compileAfresh]
    cases hempty : (ruleSources d₁ c).isEmpty with
    | true =>
      simp only [↓reduceIte]
    | false =>
      simp only [Bool.false_eq_true, ↓reduceIte, Compiled.after, compile, hempty, Tool.run]

/-- A batch was checked, linked and stored. -/
structure Compiles (c : Config) (d d' : Disk) (batch : List CheckedUnit) : Prop where
  nonempty : ruleSources d c ≠ []
  checked : Builtin.checkAll d (ruleSources d c) = (batch, [])
  links : Link.problems (.of d (rulesPath d c).1 batch) batch = []
  stored : ∃ made written, d.makeFolders c.folders.ruleClasses = (.ok (), made) ∧
    Builtin.writeAll c.folders.ruleClasses
      (batch.map (Link.linked (.of d (rulesPath d c).1 batch))) made = (.ok written, d')

/-- A pass that comes to an outcome leaves the disk alone or stores a whole batch. -/
theorem compileAfresh_cases {o : Outcome} {d' : Disk}
    (h : compileAfresh c d = (.ok o, d')) :
    (d' = d ∧ (ruleSources d c = [] ∧ o = {} ∨ o.diagnostics ≠ [])) ∨
      (o.diagnostics = [] ∧ ∃ batch, Compiles c d d' batch) := by
  rw [compileAfresh] at h
  by_cases hempty : (ruleSources d c).isEmpty = true
  · rw [if_pos hempty, Prod.mk.injEq, Except.ok.injEq] at h
    exact .inl ⟨h.2.symm, .inl ⟨List.isEmpty_iff.mp hempty, h.1.symm⟩⟩
  · rw [if_neg hempty] at h
    dsimp only at h
    rw [Prod.mk.injEq] at h
    obtain ⟨batch, found, hcheck, hcases⟩ := Builtin.compile_cases d (ruleSources d c)
      (rulesPath d c).1 c.folders.ruleClasses
    rcases hcases with ⟨hne, houtcome, hdisk⟩ | ⟨hnil, ⟨err, houtcome⟩ | ⟨written, made, stored,
      hmade, hwrite, houtcome, hdisk⟩⟩
    · refine .inl ⟨h.2 ▸ hdisk, .inr ?_⟩
      rw [houtcome, Except.ok.injEq] at h
      rw [← h.1]
      rwa [ne_eq, ← List.length_eq_zero_iff, List.length_mergeSort, List.length_eq_zero_iff]
    · rw [houtcome] at h
      cases h.1
    · rw [houtcome, hdisk, Except.ok.injEq] at h
      obtain ⟨rfl, rfl⟩ := h
      obtain ⟨rfl, hlinks⟩ := List.append_eq_nil_iff.mp hnil
      exact .inr ⟨rfl, batch, fun hs => hempty (by rw [hs]; rfl), hcheck, hlinks, made, written,
        hmade, hwrite⟩

end Pass

end LiveRules
