import LiveRules.Proofs.Compile.Written
import LiveRules.Proofs.Json.Stored

/-!
Compiling items apart from rules. Sources that refer to items link against a pack of the items as
they link in one batch with them, as long as a pack and a batch find the same unit for each item: of
several units that declare one item a batch takes the first, and a pack the one with the least
identifier.
-/

namespace LiveRules

open Disk

variable {d e : Disk} {cp : ClassPath} {path root : Path} {sources xs ys : List Source}
variable {batch rest : List CheckedUnit} {units : List Artifact} {s : Link.Scope}

/-! ### Packs of units -/

theorem Pack.isSome_get?_ofUnits {k : String} :
    ((ofUnits units).get? k).isSome = true ↔ k ∈ units.map (·.identifier) := by
  rw [get?_ofUnits]
  simp

/-- A folder that holds some units and no others is packed into their pack. -/
theorem Holds.packFolder {F : Place} (h : Holds d root F units)
    (hsave : (Pack.ofUnits units).save d path = (.ok (), e)) :
    Pack.packFolder d root path = (.ok units.length, e) ∧
      Pack.read e path = .ok (Pack.ofUnits units) := by
  obtain ⟨ordered, hperm, hread⟩ := h.readAll_collect
  constructor
  · -- the units are found in the order of their paths, which does not matter to the pack
    rw [Pack.packFolder, hread]
    dsimp only
    rw [← Pack.ofUnits_eq_of_perm hperm.symm h.distinct, hsave]
    dsimp only
    rw [Pack.length_ofUnits h.distinct]
  · have he := Pack.regular_save h.regular hsave
    rw [Pack.read_of_save (Pack.increasing_ofUnits units) hsave fun P => he.sound _ _ P,
      Pack.reread_of_comesBack fun x hx => h.comesBack x.2 (Pack.mem_of_mem_ofUnits hx)]

/-! ### What a class path keeps -/

/-- What a class path knows on one disk it knows on another one: all units, and the units of those
items whose names matter. -/
structure ClassPath.Remembers (cp : ClassPath) (Matters : String → Prop) (d e : Disk) : Prop where
  contains : ∀ identifier, cp.contains d identifier = true → cp.contains e identifier = true
  items : ∀ item identifier, Matters item → (cp.items d).lookup item = some identifier →
    (cp.items e).lookup item = some identifier

namespace ClassPath

theorem IsPacked.remembers {Matters : String → Prop} (h : cp.IsPacked) :
    cp.Remembers Matters d e where
  contains := fun identifier hc => by
    rw [ClassPath.contains, ← h.find?_eq (e := e)] at hc
    exact hc
  items := fun item identifier _ hi => by
    rw [h.items_eq (d := d)]
    exact hi

theorem contains_pack_iff {p : Pack} {identifier : String} :
    ClassPath.contains e (.pack path p :: cp) identifier = true ↔
      (p.get? identifier).isSome = true ∨ cp.contains e identifier = true := by
  rw [contains, find?, Entry.find?]
  cases p.get? identifier <;> simp [contains]

/-! ### Which unit an item has -/

/-- Of the units that are listed for one item the first is the least. -/
def FirstIsLeast (xs : List (String × String)) : Prop :=
  xs.Pairwise fun x y => x.1 = y.1 → x.2 ≤ y.2

/-- Where the first is the least, the least is found. -/
theorem FirstIsLeast.lookup_eq_some_iff {xs : List (String × String)} (h : FirstIsLeast xs)
    {k v : String} : xs.lookup k = some v ↔ (k, v) ∈ xs ∧ ∀ w, (k, w) ∈ xs → v ≤ w := by
  induction h with
  | nil => simp
  | @cons x xs hx _ ih =>
    obtain ⟨j, u⟩ := x
    rw [List.lookup_cons]
    by_cases hk : k = j
    · subst hk
      simp only [beq_self_eq_true, Option.some.injEq, List.mem_cons, Prod.mk.injEq, true_and]
      constructor
      · rintro rfl
        refine ⟨.inl rfl, fun w hw => ?_⟩
        rcases hw with rfl | hw
        · exact le_refl _
        · exact hx (k, w) hw rfl
      · rintro ⟨rfl | hmem, hleast⟩
        · rfl
        · exact le_antisymm (hx (k, v) hmem rfl) (hleast u (.inl rfl))
    · have hne : (k == j) = false := beq_eq_false_iff_ne.mpr hk
      simp only [hne, List.mem_cons, Prod.mk.injEq, hk, false_and, false_or]
      exact ih

/-- What any list finds, if it is the least, is found where the first is the least. -/
theorem FirstIsLeast.lookup_eq {ms ns : List (String × String)} (hm : FirstIsLeast ms)
    (h : ∀ x, x ∈ ms ↔ x ∈ ns) {k : String}
    (hk : ∀ v, ns.lookup k = some v → ∀ w, (k, w) ∈ ns → v ≤ w) : ms.lookup k = ns.lookup k := by
  cases hn : ns.lookup k with
  | none =>
    rw [List.lookup_eq_none_iff] at hn ⊢
    exact fun x hx => hn x ((h x).mp hx)
  | some v =>
    obtain ⟨before, after, heq, -⟩ := List.lookup_eq_some_iff.mp hn
    have hmem : (k, v) ∈ ns := heq ▸ by simp
    exact hm.lookup_eq_some_iff.mpr ⟨(h _).mpr hmem, fun w hw => hk v hn w ((h _).mp hw)⟩

/-- A pack finds the units of items by their identifiers, the least one first. -/
theorem firstIsLeast_ofUnits (h : (units.map (·.identifier)).Nodup) :
    FirstIsLeast ((Pack.ofUnits units).units.filterMap fun x => declared? x.2) := by
  refine List.pairwise_filterMap.mpr
    ((Pack.increasing_ofUnits units).imp_of_mem fun {x y} hx hy hlt => ?_)
  intro m hm n hn _
  have hsecond {z : String × Artifact} {m : String × String} (hz : z ∈ (Pack.ofUnits units).units)
      (hm : declared? z.2 = some m) : m.2 = z.1 := by
    obtain ⟨-, -, hidentifier⟩ := declared?_eq_some_iff.mp hm
    exact hidentifier.symm.trans ((Pack.mem_ofUnits h).mp hz).2.symm
  rw [hsecond hx hm, hsecond hy hn]
  exact hlt.le

/-- A pack finds the unit that its units have first for an item, if that is the least one. -/
theorem lookup_ofUnits_eq (h : (units.map (·.identifier)).Nodup) (item : String)
    (hleast : ∀ identifier, (units.filterMap declared?).lookup item = some identifier →
      ∀ other, (item, other) ∈ units.filterMap declared? → identifier ≤ other) :
    ((Pack.ofUnits units).units.filterMap fun x => declared? x.2).lookup item =
      (units.filterMap declared?).lookup item := by
  refine (firstIsLeast_ofUnits h).lookup_eq (fun m => ?_) hleast
  simp only [List.mem_filterMap]
  constructor
  · rintro ⟨x, hx, hm⟩
    exact ⟨x.2, Pack.mem_of_mem_ofUnits hx, hm⟩
  · rintro ⟨a, ha, hm⟩
    exact ⟨(a.identifier, a), (Pack.mem_ofUnits h).mpr ⟨ha, rfl⟩, hm⟩

end ClassPath

/-! ### Linking apart -/

namespace Link

theorem IsItems.declared_linked (h : IsItems batch) (s : Scope) :
    (batch.map (linked s)).filterMap ClassPath.declared? = declaredItems batch := by
  rw [List.filterMap_map, declaredItems]
  refine List.filterMap_congr fun p hp => ?_
  obtain ⟨hkind, -, -⟩ := h p hp
  rw [Function.comp_apply, ClassPath.declared?, linked]
  dsimp only
  rw [hkind]

theorem IsItems.linked_eq (h : IsItems batch) (s t : Scope) :
    batch.map (linked s) = batch.map (linked t) := by
  refine List.map_congr_left fun p hp => ?_
  obtain ⟨-, -, hmethods⟩ := h p hp
  rw [linked, linked, hmethods]
  rfl

theorem identifiers_linked (s : Scope) (batch : List CheckedUnit) :
    (batch.map (linked s)).map (·.identifier) = batch.map fun p => p.unit.identifier := by
  rw [List.map_map]
  rfl

/-- Of the units that declare an item which other units refer to the first has the least
identifier. -/
def LeastFirst (batch rest : List CheckedUnit) : Prop :=
  ∀ item identifier, Refers rest item → (declaredItems batch).lookup item = some identifier →
    ∀ other, (item, other) ∈ declaredItems batch → identifier ≤ other

/-- With nothing wrong in a batch, its identifiers differ and nothing is wrong in its last part. -/
theorem problems_append (h : problems s (batch ++ rest) = []) :
    (batch.map fun p => p.unit.identifier).Nodup ∧ problems s rest = [] := by
  rw [problems, List.append_eq_nil_iff, duplicates_eq_nil_iff, List.map_append,
    List.nodup_append, List.flatMap_append, List.append_eq_nil_iff] at h
  obtain ⟨⟨⟨hbatch, hrest, -⟩, -⟩, -, hlinks⟩ := h
  rw [problems, List.append_eq_nil_iff, duplicates_eq_nil_iff]
  exact ⟨hbatch, ⟨hrest, by simp⟩, hlinks⟩

/-- What a batch answers that starts with items, the rest of it answers over a pack of these items
that stands in front of the class path. -/
theorem answers_pack (path : Path) (s : Scope) (hitems : IsItems batch)
    (hdistinct : (batch.map fun p => p.unit.identifier).Nodup)
    (hfirst : LeastFirst batch rest) (hrest : declaredItems rest = [])
    (hcp : cp.Remembers (fun item => Refers rest item ∧
      (declaredItems batch).lookup item = none) d e) :
    (Scope.of d cp (batch ++ rest)).Answers
      (.of e (.pack path (Pack.ofUnits (batch.map (linked s))) :: cp) rest) rest where
  isBase := fun base hbase => by
    simp only [Scope.isBase, Scope.of, Bool.or_eq_true, List.contains_iff_mem, List.map_append,
      List.mem_append] at hbase ⊢
    rw [ClassPath.contains_pack_iff, Pack.isSome_get?_ofUnits, identifiers_linked]
    rcases hbase with (hbatch | hunit) | hold
    · exact .inr (.inl hbatch)
    · exact .inl hunit
    · exact .inr (.inr (hcp.contains base hold))
  itemClass? := fun item identifier hrefers hi => by
    -- the items of the batch are now those of the pack, which is searched before `cp`
    have hpack := ClassPath.lookup_ofUnits_eq
      (show ((batch.map (linked s)).map (·.identifier)).Nodup by rwa [identifiers_linked]) item
      (by
        rw [hitems.declared_linked]
        exact fun first => hfirst item first hrefers)
    rw [hitems.declared_linked] at hpack
    have hall : declaredItems (batch ++ rest) = declaredItems batch := by
      rw [declaredItems, List.filterMap_append]
      show _ ++ declaredItems rest = _
      rw [hrest, List.append_nil]
      rfl
    simp only [Scope.itemClass?, Scope.of, hall, hrest, List.lookup_nil, Option.none_or] at hi ⊢
    show List.lookup item (((Pack.ofUnits _).units.filterMap fun x => ClassPath.declared? x.2) ++
      cp.items e) = _
    rw [List.lookup_append, hpack]
    cases hfound : (declaredItems batch).lookup item with
    | some found =>
      rw [hfound] at hi
      exact hi
    | none =>
      rw [hfound, Option.none_or] at hi
      rw [Option.none_or]
      exact hcp.items item identifier ⟨hrefers, hfound⟩ hi

/-- Items and the rest of a batch link apart as they link together. -/
theorem links_apart (path : Path) (s : Scope) (hitems : IsItems batch)
    (hfirst : LeastFirst batch rest) (hrest : declaredItems rest = [])
    (hcp : cp.Remembers (fun item => Refers rest item ∧
      (declaredItems batch).lookup item = none) d e)
    (hlines : ∀ p ∈ rest, p.itemLines.length = p.unit.methods.length)
    (h : problems (.of d cp (batch ++ rest)) (batch ++ rest) = []) :
    problems (.of e (.pack path (Pack.ofUnits (batch.map (linked s))) :: cp) rest) rest = [] ∧
      rest.map (linked (.of e (.pack path (Pack.ofUnits (batch.map (linked s))) :: cp) rest)) =
        rest.map (linked (.of d cp (batch ++ rest))) := by
  obtain ⟨hdistinct, hlinks⟩ := problems_append h
  have hanswers := answers_pack path s hitems hdistinct hfirst hrest hcp
  exact ⟨problems_mono hanswers hlinks, linked_eq hanswers hlinks hlines⟩

end Link

namespace Builtin

/-- The units that a compilation stores, in the order of the sources. -/
def outputs (d : Disk) (sources : List Source) (cp : ClassPath) : List Artifact :=
  let batch := (checkAll d sources).1
  batch.map (Link.linked (.of d cp batch))

theorem outputs_eq {found : List Diagnostic} (h : checkAll d sources = (batch, found)) :
    outputs d sources cp = batch.map (Link.linked (.of d cp batch)) := by
  rw [outputs, h]

/-- Nothing is reported when each source passes its check and the batch links. -/
theorem clean_iff : (compile d sources cp root).diagnostics = [] ↔
    ∃ batch, checkAll d sources = (batch, []) ∧ Link.problems (.of d cp batch) batch = [] := by
  obtain ⟨batch, found, hcheck, hcases⟩ := compile_cases d sources cp root
  have hclean : (∃ batch, checkAll d sources = (batch, []) ∧
      Link.problems (.of d cp batch) batch = []) ↔
        found ++ Link.problems (.of d cp batch) batch = [] := by
    rw [hcheck, List.append_eq_nil_iff]
    constructor
    · rintro ⟨_, heq, hlinks⟩
      cases heq
      exact ⟨rfl, hlinks⟩
    · rintro ⟨rfl, hlinks⟩
      exact ⟨batch, rfl, hlinks⟩
  rw [hclean]
  rcases hcases with ⟨hne, houtcome, -⟩ | ⟨hnil, ⟨err, houtcome⟩ | ⟨written, -, -, -, -, houtcome,
    -⟩⟩ <;> rw [Result.diagnostics, houtcome]
  · refine iff_of_false (fun hno => hne ?_) hne
    rwa [← List.length_eq_zero_iff, List.length_mergeSort, List.length_eq_zero_iff] at hno
  · exact iff_of_true rfl hnil
  · exact iff_of_true rfl hnil

theorem diagnostics_of_ok {x : Result} {o : Outcome} (h : x.outcome = .ok o) :
    x.diagnostics = o.diagnostics := by
  rw [Result.diagnostics, h]

/-- What is stored without diagnostics are these units. -/
theorem compile_stores {o : Outcome} (hok : (compile d sources cp root).outcome = .ok o)
    (hclean : o.diagnostics = []) : ∃ made, d.makeFolders root = (.ok (), made) ∧
      writeAll root (outputs d sources cp) made =
        (.ok o.written, (compile d sources cp root).disk) := by
  obtain ⟨batch, made, hcheck, -, hmake, hwrite⟩ := compile_accepted hok hclean
  refine ⟨made, hmake, ?_⟩
  rw [outputs, hcheck]
  exact hwrite

theorem checkAll_append (d : Disk) (xs ys : List Source) : checkAll d (xs ++ ys) =
    ((checkAll d xs).1 ++ (checkAll d ys).1, (checkAll d xs).2 ++ (checkAll d ys).2) := by
  induction xs with
  | nil => rfl
  | cons s xs ih =>
    rw [List.cons_append, checkAll, checkAll, ih]
    dsimp only
    cases Check.ofPath d s.path with
    | ok p => rfl
    | error found =>
      dsimp only
      rw [List.append_assoc]

/-- A source that passes its check declares what its unit says. -/
theorem exists_declares {s : Source} {p : CheckedUnit} (h : Check.ofPath d s.path = .ok p) :
    ∃ text x, Source.Declares d s x ∧ p = Check.checked s.path text x := by
  obtain ⟨text, x, htext, hx, hproper, rfl⟩ := Check.ofPath_eq_ok_iff.mp h
  exact ⟨text, x, ⟨text, htext, Declaration.ofText_eq_ok_iff.mp hx, hproper⟩, rfl⟩

end Builtin

/-! ### Sources of items -/

/-- A rule of some sources refers to an item. -/
def Source.Refers (d : Disk) (ys : List Source) (item : String) : Prop :=
  ∃ s ∈ ys, ∃ x, Source.Declares d s x ∧ ∃ r ∈ x.rules, r.item.text = item

/-- A source declares an item, and its unit has this identifier. -/
def Source.DeclaresItem (d : Disk) (s : Source) (item identifier : String) : Prop :=
  ∃ x, Source.Declares d s x ∧ (∃ i ∈ x.item, i.name = item) ∧
    x.identifier s.path.stem = identifier

/-- The first of some sources that declares an item gives its unit this identifier. -/
def Source.FirstDeclares (d : Disk) (xs : List Source) (item identifier : String) : Prop :=
  ∃ before s after, xs = before ++ s :: after ∧ Source.DeclaresItem d s item identifier ∧
    ∀ t ∈ before, ∀ other, ¬Source.DeclaresItem d t item other

theorem Source.DeclaresItem.unique {s : Source} {item identifier other : String}
    (h : Source.DeclaresItem d s item identifier) (h' : Source.DeclaresItem d s item other) :
    identifier = other := by
  obtain ⟨x, hx, -, rfl⟩ := h
  obtain ⟨y, hy, -, rfl⟩ := h'
  rw [hx.unique hy]

/-- It is enough that identifiers increase from source to source. -/
theorem Source.FirstDeclares.le_of_pairwise {item identifier : String}
    (h : Source.FirstDeclares d xs item identifier)
    (hxs : xs.Pairwise fun s t => ∀ one other, Source.DeclaresItem d s item one →
      Source.DeclaresItem d t item other → one ≤ other) :
    ∀ s ∈ xs, ∀ other, Source.DeclaresItem d s item other → identifier ≤ other := by
  obtain ⟨before, s, after, rfl, hs, hbefore⟩ := h
  intro t ht other hother
  rcases List.mem_append.mp ht with ht | ht
  · exact absurd hother (hbefore t ht other)
  rcases List.mem_cons.mp ht with rfl | ht
  · exact (hs.unique hother).le
  · have hafter := (List.pairwise_cons.mp (List.pairwise_append.mp hxs).2.1).1
    exact hafter t ht identifier other hs hother

namespace Builtin

theorem mem_declaredItems_iff (hcheck : checkAll d xs = (batch, [])) {item identifier : String} :
    (item, identifier) ∈ Link.declaredItems batch ↔
      ∃ s ∈ xs, Source.DeclaresItem d s item identifier := by
  have hall := forall₂_of_checkAll hcheck
  rw [Link.declaredItems, List.mem_filterMap]
  constructor
  · rintro ⟨p, hp, hitem⟩
    obtain ⟨s, hs, hsp⟩ := exists_of_forall₂_right hall p hp
    obtain ⟨text, x, hx, rfl⟩ := exists_declares hsp
    obtain ⟨i, hi, heq⟩ := Option.map_eq_some_iff.mp hitem
    obtain ⟨rfl, rfl⟩ := Prod.mk.inj heq
    exact ⟨s, hs, x, hx, ⟨i, hi, rfl⟩, rfl⟩
  · rintro ⟨s, hs, x, hx, ⟨i, hi, rfl⟩, rfl⟩
    obtain ⟨p, hp, hsp⟩ := exists_of_forall₂_left hall s hs
    obtain ⟨text, y, hy, rfl⟩ := exists_declares hsp
    obtain rfl := hx.unique hy
    exact ⟨_, hp, Option.map_eq_some_iff.mpr ⟨i, hi, rfl⟩⟩

/-- A batch takes the first source that declares an item. -/
theorem firstDeclares_of_lookup {item identifier : String}
    (hall : List.Forall₂ (fun s p => Check.ofPath d s.path = .ok p) xs batch)
    (hfound : (Link.declaredItems batch).lookup item = some identifier) :
    Source.FirstDeclares d xs item identifier := by
  induction hall with
  | nil => cases hfound
  | @cons s p xs batch hsp hrest ih =>
    obtain ⟨text, x, hx, rfl⟩ := exists_declares hsp
    by_cases hitem : ∃ i ∈ x.item, i.name = item
    · -- the search ends with this source
      refine ⟨[], s, xs, rfl, ⟨x, hx, hitem, ?_⟩, by simp⟩
      obtain ⟨i, hi, rfl⟩ := hitem
      have hunit : (Check.checked s.path text x).unit.item = some i := hi
      rw [Link.declaredItems, List.filterMap_cons, hunit, Option.map_some] at hfound
      dsimp only at hfound
      rw [List.lookup_cons_self] at hfound
      exact Option.some.inj hfound
    · -- the search goes on behind it
      have hskip : (Link.declaredItems batch).lookup item = some identifier := by
        rw [Link.declaredItems, List.filterMap_cons] at hfound
        cases hunit : (Check.checked s.path text x).unit.item with
        | none =>
          rw [hunit] at hfound
          exact hfound
        | some i =>
          have hne : (item == i.name) = false :=
            beq_eq_false_iff_ne.mpr fun heq => hitem ⟨i, hunit, heq.symm⟩
          rw [hunit, Option.map_some] at hfound
          dsimp only at hfound
          rw [List.lookup_cons, hne] at hfound
          exact hfound
      obtain ⟨before, t, after, rfl, ht, hbefore⟩ := ih hskip
      refine ⟨s :: before, t, after, rfl, ht, fun u hu other => ?_⟩
      rcases List.mem_cons.mp hu with rfl | hu
      · rintro ⟨y, hy, hyitem, -⟩
        exact hitem (hx.unique hy ▸ hyitem)
      · exact hbefore u hu other

theorem refers_of_checkAll (hcheck : checkAll d ys = (rest, [])) {item : String}
    (h : Link.Refers rest item) : Source.Refers d ys item := by
  obtain ⟨p, hp, m, hm, rfl⟩ := h
  obtain ⟨s, hs, hsp⟩ := exists_of_forall₂_right (forall₂_of_checkAll hcheck) p hp
  obtain ⟨text, x, hx, rfl⟩ := exists_declares hsp
  obtain ⟨-, -, -, hproper⟩ := id hx
  have hitem : m.item ∈ (x.rules.filterMap Check.method?).map Method.item := List.mem_map_of_mem hm
  rw [items_filterMap_method? hproper.rules, List.mem_map] at hitem
  exact ⟨s, hs, x, hx, hitem⟩

end Builtin

/-- Sources that declare items and nothing else, and whose units have files of their own. -/
structure Source.AreItems (d : Disk) (xs : List Source) : Prop where
  items : ∀ s ∈ xs, ∀ x, Source.Declares d s x → x.kind = .item ∧ x.base? = none ∧ x.rules = []
  dotted : ∀ s ∈ xs, ∀ x, Source.Declares d s x → Naming.IsDotted (x.identifier s.path.stem)

namespace Source.AreItems

open Builtin

variable (h : Source.AreItems d xs)

include h

theorem isItems (hcheck : checkAll d xs = (batch, [])) : Link.IsItems batch := by
  intro p hp
  obtain ⟨s, hs, hsp⟩ := exists_of_forall₂_right (forall₂_of_checkAll hcheck) p hp
  obtain ⟨text, x, hx, rfl⟩ := exists_declares hsp
  obtain ⟨hkind, hbase, hrules⟩ := h.items s hs x hx
  refine ⟨hkind, ?_, ?_⟩
  · rw [Check.checked, Check.unitOf, hbase]
    rfl
  · rw [Check.checked, Check.unitOf, hrules]
    rfl

theorem isDotted (hcheck : checkAll d xs = (batch, [])) :
    ∀ a ∈ outputs d xs cp, Naming.IsDotted a.identifier := by
  intro a ha
  rw [outputs_eq hcheck] at ha
  obtain ⟨p, hp, rfl⟩ := List.mem_map.mp ha
  obtain ⟨s, hs, hsp⟩ := exists_of_forall₂_right (forall₂_of_checkAll hcheck) p hp
  obtain ⟨text, x, hx, rfl⟩ := exists_declares hsp
  exact h.dotted s hs x hx

/-- The items lie in the folder that they were compiled into, and nothing else does. -/
theorem holds {o : Outcome} (hd : d.Regular) (hroot : root.text ≠ "")
    (hok : (compile d xs cp root).outcome = .ok o) (hclean : o.diagnostics = [])
    (hempty : ∀ F names, (compile d xs cp root).disk.place? root = .ok F → NamesUnit names →
      ¬d.HasFile (F ++ names)) :
    ∃ F, Holds (compile d xs cp root).disk root F (outputs d xs cp) := by
  obtain ⟨batch, hcheck, hlinks⟩ := clean_iff.mp ((diagnostics_of_ok hok).trans hclean)
  obtain ⟨made, hmake, hwrite⟩ := compile_stores hok hclean
  obtain ⟨hregular, hgrown, hfolder⟩ := makeFolders_spec hd hmake
  obtain ⟨places, hstored⟩ := writeAll_spec hregular hwrite
  have hthere := (hfolder rfl).resolve_left fun hno => hroot (Path.isEmpty_iff.mp hno)
  obtain ⟨F, hF, -⟩ := (isFolder_iff hregular.sound).mp hthere
  refine ⟨F, hstored.holds hroot hF (h.isDotted hcheck) ?_ (fun a ha m hm => ?_)
    fun names hnames hfile => ?_⟩
  · rw [outputs_eq hcheck]
    exact Link.identifiers_nodup hlinks
  · -- a unit without rules has no thresholds, so all of it comes back from its file
    rw [outputs_eq hcheck] at ha
    obtain ⟨p, hp, rfl⟩ := List.mem_map.mp ha
    obtain ⟨-, -, hmethods⟩ := h.isItems hcheck p hp
    rw [Link.linked, hmethods] at hm
    cases hm
  · obtain ⟨content, x, hx⟩ := hfile
    exact hempty F names (place?_mono hstored.current hstored.folder hF) hnames
      ⟨content, x, hgrown.file hx⟩

/-- Items are packed after they are compiled, and their pack is read back. -/
theorem packed {o : Outcome} (hd : d.Regular) (hroot : root.text ≠ "")
    (hok : (compile d xs cp root).outcome = .ok o) (hclean : o.diagnostics = [])
    (hempty : ∀ F names, (compile d xs cp root).disk.place? root = .ok F → NamesUnit names →
      ¬d.HasFile (F ++ names))
    (hsave : (Pack.ofUnits (outputs d xs cp)).save (compile d xs cp root).disk path = (.ok (), e)) :
    Pack.packFolder (compile d xs cp root).disk root path = (.ok xs.length, e) ∧
      Pack.read e path = .ok (Pack.ofUnits (outputs d xs cp)) := by
  obtain ⟨batch, hcheck, -⟩ := clean_iff.mp ((diagnostics_of_ok hok).trans hclean)
  obtain ⟨F, hholds⟩ := h.holds hd hroot hok hclean hempty
  have hlength : (outputs d xs cp).length = xs.length := by
    rw [outputs_eq hcheck, List.length_map]
    exact (forall₂_of_checkAll hcheck).length_eq.symm
  exact hlength ▸ hholds.packFolder hsave

end Source.AreItems

/-- Items come before sources that declare none. Where a rule of these refers to an item, the first
source that declares it has the least identifier of those that do. -/
structure Source.ItemsFirst (d : Disk) (xs ys : List Source) : Prop extends
    Source.AreItems d xs where
  rest : ∀ s ∈ ys, ∀ x, Source.Declares d s x → x.item = none
  first : ∀ item identifier, Source.Refers d ys item →
    Source.FirstDeclares d xs item identifier →
      ∀ s ∈ xs, ∀ other, Source.DeclaresItem d s item other → identifier ≤ other

namespace Source.ItemsFirst

open Builtin

variable (h : Source.ItemsFirst d xs ys)

include h

theorem leastFirst (hxs : checkAll d xs = (batch, [])) (hys : checkAll d ys = (rest, [])) :
    Link.LeastFirst batch rest := by
  intro item identifier hrefers hfound other hother
  obtain ⟨s, hs, hdeclares⟩ := (mem_declaredItems_iff hxs).mp hother
  exact h.first item identifier (refers_of_checkAll hys hrefers)
    (firstDeclares_of_lookup (forall₂_of_checkAll hxs) hfound) s hs other hdeclares

theorem declares_none (hcheck : checkAll d ys = (rest, [])) : Link.declaredItems rest = [] := by
  refine List.filterMap_eq_nil_iff.mpr fun p hp => ?_
  obtain ⟨s, hs, hsp⟩ := exists_of_forall₂_right (forall₂_of_checkAll hcheck) p hp
  obtain ⟨text, x, hx, rfl⟩ := exists_declares hsp
  rw [Check.checked, Check.unitOf, h.rest s hs x hx]
  rfl

end Source.ItemsFirst

namespace Builtin

/-- Separate compilation agrees with compilation in one batch. If sources of items, followed by
sources that declare none, compile in one batch without diagnostics, then the items compile alone,
what they compile to is packed and read back, and the others compile over a class path with this
pack in front, on any disk where their texts are the same and the class path knows what it knew.
The units are those of the batch, with the same units for the items of their rules. -/
theorem compile_apart {out out' : Path} {o : Outcome} {e' : Disk} (hd : d.Regular)
    (hsources : Source.ItemsFirst d xs ys) (hout : out.text ≠ "")
    (hbatch : (compile d (xs ++ ys) cp root).diagnostics = [])
    (hok : (compile d xs cp out).outcome = .ok o)
    (hempty : ∀ F names, (compile d xs cp out).disk.place? out = .ok F → NamesUnit names →
      ¬d.HasFile (F ++ names))
    (hsave : (Pack.ofUnits (outputs d xs cp)).save (compile d xs cp out).disk path = (.ok (), e))
    (htexts : ∀ s ∈ ys, e'.readText s.path = d.readText s.path)
    (hcp : cp.Remembers (fun item => Source.Refers d ys item ∧
      ∀ s ∈ xs, ∀ identifier, ¬Source.DeclaresItem d s item identifier) d e') :
    o.diagnostics = [] ∧
      Pack.packFolder (compile d xs cp out).disk out path = (.ok xs.length, e) ∧
      Pack.read e path = .ok (Pack.ofUnits (outputs d xs cp)) ∧
      (compile e' ys (.pack path (Pack.ofUnits (outputs d xs cp)) :: cp) out').diagnostics = [] ∧
      outputs d (xs ++ ys) cp = outputs d xs cp ++
        outputs e' ys (.pack path (Pack.ofUnits (outputs d xs cp)) :: cp) := by
  obtain ⟨whole, hcheck, hlinks⟩ := clean_iff.mp hbatch
  rw [checkAll_append] at hcheck
  rcases hxs : checkAll d xs with ⟨batch, found⟩
  rcases hys : checkAll d ys with ⟨rest, more⟩
  rw [hxs, hys, Prod.mk.injEq, List.append_eq_nil_iff] at hcheck
  obtain ⟨rfl, rfl, rfl⟩ := hcheck
  have hitems := hsources.isItems hxs
  obtain ⟨hdistinct, -⟩ := Link.problems_append hlinks
  have hclean : o.diagnostics = [] := (diagnostics_of_ok hok).symm.trans
    (clean_iff.mpr ⟨batch, hxs, hitems.problems_eq_nil hdistinct _⟩)
  obtain ⟨hpack, hread⟩ := hsources.packed hd hout hok hclean hempty hsave
  -- only items that no source of the batch declares are looked up in `cp`
  have hremembers : cp.Remembers (fun item => Link.Refers rest item ∧
      (Link.declaredItems batch).lookup item = none) d e' := by
    refine ⟨hcp.contains, fun item identifier ⟨hrefers, hnone⟩ => hcp.items item identifier
      ⟨refers_of_checkAll hys hrefers, fun s hs other hdeclares => ?_⟩⟩
    have hmem := (mem_declaredItems_iff hxs).mpr ⟨s, hs, hdeclares⟩
    simpa using List.lookup_eq_none_iff.mp hnone _ hmem
  obtain ⟨hrest, hunits⟩ := Link.links_apart path (.of d cp batch) hitems
    (hsources.leastFirst hxs hys) (hsources.declares_none hys) hremembers (length_itemLines hys)
    hlinks
  have hys' : checkAll e' ys = (rest, []) := (checkAll_eq_of_readText htexts).trans hys
  refine ⟨hclean, hpack, hread, ?_, ?_⟩
  · rw [outputs_eq hxs]
    exact clean_iff.mpr ⟨rest, hys', hrest⟩
  · have hall : checkAll d (xs ++ ys) = (batch ++ rest, []) := by
      rw [checkAll_append, hxs, hys]
      rfl
    rw [outputs_eq hall, outputs_eq hxs, outputs_eq hys', List.map_append, hunits,
      hitems.linked_eq]

/-! ### One item in two sources -/

/-- Two sources of one item, and a source with a rule for it. -/
def hallDisk : Disk where
  entries := (["src"], .folder) ::
    ["A", "B"].map (fun stem => (["src", stem ++ ".rule"], .file (Text.encode
      "package=\"p\"\nkind=\"item\"\n[item]\nname=\"Lamp\"\ntype=\"Switch\"") false)) ++
    [(["src", "Hall.rule"], .file (Text.encode
      "package=\"p\"\n[[rule]]\nname=\"on\"\nitem=\"Lamp\"\ntrigger=\"received command\"") false)]

def hallSource (stem : String) : Source := Source.scan hallDisk ⟨"src/" ++ stem ++ ".rule"⟩

/-- The pack of the units of some sources. -/
def hallPack (stems : List String) : Pack :=
  .ofUnits (outputs hallDisk (stems.map hallSource) [])

/-- The disk after these sources are compiled and their pack is saved. -/
def hallPacked (stems : List String) : Except PackError Unit × Disk :=
  (hallPack stems).save (compile hallDisk (stems.map hallSource) [] ⟨"out"⟩).disk ⟨"items.pack"⟩

theorem regular_hallDisk : hallDisk.Regular :=
  ⟨.of_entries (show (hallDisk.entries.map Prod.fst).Nodup by decide)
    (show ∀ x ∈ hallDisk.entries, x.1 ≠ [] ∧
      Disk.entry? hallDisk x.1.dropLast = some .folder ∧
      ∀ name ∈ x.1.getLast?, Path.IsName name by decide), fun _ _ _ => rfl⟩

/-- No file lies where the units go. -/
theorem hallDisk_empty (names : List String) : ¬hallDisk.HasFile (["out"] ++ names) := by
  rintro ⟨content, x, hx⟩
  have hhead : some "out" ∈ hallDisk.entries.map fun x => x.1.head? :=
    List.mem_map_of_mem (regular_hallDisk.tree.mem_iff.mpr ⟨by simp, hx⟩)
  exact absurd hhead (by decide)

theorem hallDisk_items {stem : String} (hstem : stem ∈ ["A", "B"]) {x : Declaration}
    (h : Source.Declares hallDisk (hallSource stem) x) :
    x.kind = .item ∧ x.base? = none ∧ x.rules = [] ∧
      x.identifier (hallSource stem).path.stem = "p." ++ stem := by
  have hread : ∀ stem ∈ ["A", "B"], ((hallDisk.readText (hallSource stem).path).toOption.bind
      fun text => (Declaration.ofText text.toList).toOption).all (fun x =>
        x.kind = .item ∧ x.base? = none ∧ x.rules = [] ∧
          x.identifier (hallSource stem).path.stem = "p." ++ stem) = true := by
    decide +kernel
  have hstem := hread stem hstem
  rw [declared_eq h, Option.all_some] at hstem
  exact of_decide_eq_true hstem

theorem hallDisk_areItems {stems : List String} (h : stems ⊆ ["A", "B"]) :
    Source.AreItems hallDisk (stems.map hallSource) where
  items := by
    rintro s hs x hx
    obtain ⟨stem, hstem, rfl⟩ := List.mem_map.mp hs
    obtain ⟨hkind, hbase, hrules, -⟩ := hallDisk_items (h hstem) hx
    exact ⟨hkind, hbase, hrules⟩
  dotted := by
    rintro s hs x hx
    obtain ⟨stem, hstem, rfl⟩ := List.mem_map.mp hs
    obtain ⟨-, -, -, hidentifier⟩ := hallDisk_items (h hstem) hx
    have hdotted : ∀ stem ∈ ["A", "B"], Naming.IsDotted ("p." ++ stem) := by decide
    exact hidentifier ▸ hdotted stem (h hstem)

/-- Items in the order of their identifiers come before the rule for them. -/
theorem hallDisk_itemsFirst :
    Source.ItemsFirst hallDisk (["A", "B"].map hallSource) (["Hall"].map hallSource) where
  toAreItems := hallDisk_areItems fun _ hstem => hstem
  first := by
    intro item identifier _ hfirst
    have hle : ["A", "B"].Pairwise fun stem stem' => "p." ++ stem ≤ "p." ++ stem' := by decide
    refine hfirst.le_of_pairwise (List.pairwise_map.mpr (hle.imp_of_mem ?_))
    rintro stem stem' hstem hstem' hle _ _ ⟨x, hx, -, rfl⟩ ⟨y, hy, -, rfl⟩
    obtain ⟨-, -, -, hidentifier⟩ := hallDisk_items hstem hx
    obtain ⟨-, -, -, hidentifier'⟩ := hallDisk_items hstem' hy
    rwa [hidentifier, hidentifier']
  rest := by
    intro s hs x hx
    have hread : ∀ s ∈ ["Hall"].map hallSource, ((hallDisk.readText s.path).toOption.bind
        fun text => (Declaration.ofText text.toList).toOption).all (·.item.isNone) = true := by
      decide +kernel
    have hs := hread s hs
    rw [declared_eq hx, Option.all_some] at hs
    exact Option.isNone_iff_eq_none.mp hs

/-- The folder of the units holds none before. -/
theorem hallDisk_free {stems : List String}
    (h : (compile hallDisk (stems.map hallSource) [] ⟨"out"⟩).disk.place? ⟨"out"⟩ = .ok ["out"])
    (F : Place) (names : List String)
    (hF : (compile hallDisk (stems.map hallSource) [] ⟨"out"⟩).disk.place? ⟨"out"⟩ = .ok F)
    (_ : NamesUnit names) : ¬hallDisk.HasFile (F ++ names) := by
  obtain rfl := Except.ok.inj (h.symm.trans hF)
  exact hallDisk_empty names

/-- The item has the unit with the least identifier, compiled apart or together. -/
theorem compile_apart_hall : ∃ o e,
    (compile hallDisk (["A", "B"].map hallSource) [] ⟨"out"⟩).outcome = .ok o ∧
    hallPacked ["A", "B"] = (.ok (), e) ∧
    o.diagnostics = [] ∧
    Pack.packFolder (compile hallDisk (["A", "B"].map hallSource) [] ⟨"out"⟩).disk ⟨"out"⟩
      ⟨"items.pack"⟩ = (.ok 2, e) ∧
    Pack.read e ⟨"items.pack"⟩ = .ok (hallPack ["A", "B"]) ∧
    (compile e (["Hall"].map hallSource) [.pack ⟨"items.pack"⟩ (hallPack ["A", "B"])]
      ⟨"rules"⟩).diagnostics = [] ∧
    outputs hallDisk (["A", "B"].map hallSource ++ ["Hall"].map hallSource) [] =
      outputs hallDisk (["A", "B"].map hallSource) [] ++
        outputs e (["Hall"].map hallSource) [.pack ⟨"items.pack"⟩ (hallPack ["A", "B"])] := by
  obtain ⟨hbatch, hplace, hcompiled, hruns⟩ :
      (compile hallDisk (["A", "B"].map hallSource ++ ["Hall"].map hallSource) []
        ⟨"all"⟩).diagnostics = [] ∧
      (compile hallDisk (["A", "B"].map hallSource) [] ⟨"out"⟩).disk.place? ⟨"out"⟩ =
        .ok ["out"] ∧
      (compile hallDisk (["A", "B"].map hallSource) [] ⟨"out"⟩).outcome.toOption.map
        (·.diagnostics) = some [] ∧
      (hallPacked ["A", "B"]).1 = .ok () ∧ ∀ s ∈ ["Hall"].map hallSource,
        (hallPacked ["A", "B"]).2.readText s.path = hallDisk.readText s.path := by
    decide +kernel
  obtain ⟨o, ho, -⟩ := CompileError.exists_clean hcompiled
  generalize hsave : hallPacked ["A", "B"] = x at hruns
  obtain ⟨r, e⟩ := x
  obtain ⟨rfl, htexts⟩ := hruns
  exact ⟨o, e, ho, rfl, compile_apart regular_hallDisk hallDisk_itemsFirst (by decide) hbatch ho
    (hallDisk_free hplace) hsave htexts (ClassPath.IsPacked.remembers fun _ h => nomatch h)⟩

/-- With the items in the other order a batch takes the first one, and a pack the other. -/
theorem compile_apart_differs : ∃ o e,
    (compile hallDisk (["B", "A"].map hallSource ++ ["Hall"].map hallSource) []
      ⟨"all"⟩).diagnostics = [] ∧
    (compile hallDisk (["B", "A"].map hallSource) [] ⟨"out"⟩).outcome = .ok o ∧
    o.diagnostics = [] ∧
    Pack.packFolder (compile hallDisk (["B", "A"].map hallSource) [] ⟨"out"⟩).disk ⟨"out"⟩
      ⟨"items.pack"⟩ = (.ok 2, e) ∧
    Pack.read e ⟨"items.pack"⟩ = .ok (hallPack ["B", "A"]) ∧
    (compile e (["Hall"].map hallSource) [.pack ⟨"items.pack"⟩ (hallPack ["B", "A"])]
      ⟨"rules"⟩).diagnostics = [] ∧
    (outputs hallDisk (["B", "A"].map hallSource ++ ["Hall"].map hallSource) []).map
      (fun a => a.methods.map (·.itemClass)) = [[], [], [some "p.B"]] ∧
    (outputs e (["Hall"].map hallSource) [.pack ⟨"items.pack"⟩ (hallPack ["B", "A"])]).map
      (fun a => a.methods.map (·.itemClass)) = [[some "p.A"]] := by
  obtain ⟨hbatch, hplace, hcompiled, htogether, hruns⟩ :
      (compile hallDisk (["B", "A"].map hallSource ++ ["Hall"].map hallSource) []
        ⟨"all"⟩).diagnostics = [] ∧
      (compile hallDisk (["B", "A"].map hallSource) [] ⟨"out"⟩).disk.place? ⟨"out"⟩ =
        .ok ["out"] ∧
      (compile hallDisk (["B", "A"].map hallSource) [] ⟨"out"⟩).outcome.toOption.map
        (·.diagnostics) = some [] ∧
      (outputs hallDisk (["B", "A"].map hallSource ++ ["Hall"].map hallSource) []).map
        (fun a => a.methods.map (·.itemClass)) = [[], [], [some "p.B"]] ∧
      (hallPacked ["B", "A"]).1 = .ok () ∧
      (compile (hallPacked ["B", "A"]).2 (["Hall"].map hallSource)
        [.pack ⟨"items.pack"⟩ (hallPack ["B", "A"])] ⟨"rules"⟩).diagnostics = [] ∧
      (outputs (hallPacked ["B", "A"]).2 (["Hall"].map hallSource)
        [.pack ⟨"items.pack"⟩ (hallPack ["B", "A"])]).map
        (fun a => a.methods.map (·.itemClass)) = [[some "p.A"]] := by
    decide +kernel
  obtain ⟨o, ho, hclean⟩ := CompileError.exists_clean hcompiled
  generalize hsave : hallPacked ["B", "A"] = x at hruns
  obtain ⟨r, e⟩ := x
  obtain ⟨rfl, hrest, hclasses⟩ := hruns
  have hitems := hallDisk_areItems (show ["B", "A"] ⊆ ["A", "B"] by simp)
  obtain ⟨hpack, hread⟩ := hitems.packed regular_hallDisk (by decide) ho hclean
    (hallDisk_free hplace) hsave
  exact ⟨o, e, hbatch, ho, hclean, hpack, hread, hrest, htogether, hclasses⟩

end Builtin

end LiveRules
