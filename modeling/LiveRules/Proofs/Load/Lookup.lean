import LiveRules.Proofs.Compile.Outputs
import LiveRules.Proofs.Load.Contexts

/-!
Loading what a pass has stored. A dotted name means the unit of the batch with that identifier, or
else what the first archive holds under it; the loader finds just that, reaches the end of every
chain, and so gives the contexts of all units of the batch in the order of their paths.
-/

namespace LiveRules

/-- The archives of a class path. -/
def archives (cp : ClassPath) : List Pack :=
  cp.filterMap fun
    | .pack _ content => some content
    | .folder _ => none

/-- The unit that a name means: one of a batch, or else one of the archives in their order. -/
def meant (units : List Artifact) (packs : List Pack) (name : String) : Option Artifact :=
  (units.find? fun a => a.identifier == name).or (packs.findSome? fun p => p.get? name)

/-- An archive as archives are written: units lie under their own identifiers, and these and what
the units extend are dotted names. -/
structure Pack.IsProper (p : Pack) : Prop where
  own : ∀ x ∈ p.units, x.2.identifier = x.1
  dotted : ∀ x ∈ p.units, Naming.IsDotted x.1
  bases : ∀ x ∈ p.units, ∀ base ∈ x.2.extends?, Naming.IsDotted base

instance (p : Pack) : Decidable p.IsProper :=
  decidable_of_iff ((∀ x ∈ p.units, x.2.identifier = x.1) ∧
      (∀ x ∈ p.units, Naming.IsDotted x.1) ∧
      ∀ x ∈ p.units, ∀ base ∈ x.2.extends?, Naming.IsDotted base)
    ⟨fun h => ⟨h.1, h.2.1, h.2.2⟩, fun h => ⟨h.own, h.dotted, h.bases⟩⟩

theorem Pack.mem_of_get? {p : Pack} {name : String} {a : Artifact} (h : p.get? name = some a) :
    (name, a) ∈ p.units := by
  obtain ⟨x, hx, rfl⟩ := Option.map_eq_some_iff.mp h
  have hname : x.1 = name := by simpa using List.find?_some hx
  exact hname ▸ List.mem_of_find?_eq_some hx

theorem ClassPath.IsPacked.find?_eq_findSome? {cp : ClassPath} {d : Disk} {name : String}
    (h : cp.IsPacked) : cp.find? d name = .ok ((archives cp).findSome? fun p => p.get? name) := by
  induction cp with
  | nil => rfl
  | cons entry cp ih =>
    obtain ⟨path, content, rfl⟩ := h entry List.mem_cons_self
    rw [find?, Entry.find?, ih fun e he => h e (List.mem_cons_of_mem _ he)]
    cases hget : content.get? name <;> simp [archives, hget]

theorem ClassPath.IsPacked.exists_of_contains {cp : ClassPath} {d : Disk} {name : String}
    (h : cp.IsPacked) (hc : cp.contains d name = true) :
    ∃ p ∈ archives cp, ∃ a, (name, a) ∈ p.units := by
  rw [contains, h.find?_eq_findSome?] at hc
  cases hfind : (archives cp).findSome? fun p => p.get? name with
  | none => simp [hfind] at hc
  | some a =>
    obtain ⟨p, hp, hget⟩ := List.exists_of_findSome?_eq_some hfind
    exact ⟨p, hp, a, Pack.mem_of_get? hget⟩

section Batch

variable {d : Disk} {root : Path} {F : Place} {units : List Artifact} {a : Artifact}
variable {more : ClassPath} {name : String}

theorem find?_of_mem_units (hdistinct : (units.map (·.identifier)).Nodup) (ha : a ∈ units) :
    units.find? (fun b => b.identifier == a.identifier) = some a := by
  cases hfind : units.find? fun b => b.identifier == a.identifier with
  | none =>
    rw [List.find?_eq_none] at hfind
    exact absurd (beq_self_eq_true _) (hfind a ha)
  | some b =>
    have hb : b.identifier = a.identifier := by simpa using List.find?_some hfind
    rw [List.inj_on_of_nodup_map hdistinct (List.mem_of_find?_eq_some hfind) ha hb]

theorem meant_of_mem {packs : List Pack} (hdistinct : (units.map (·.identifier)).Nodup)
    (ha : a ∈ units) : meant units packs a.identifier = some a := by
  rw [meant, find?_of_mem_units hdistinct ha, Option.some_or]

/-- Whatever a name means is a unit of the batch or of an archive. -/
theorem meant_cases {packs : List Pack} (h : meant units packs name = some a) :
    a ∈ units ∧ a.identifier = name ∨ ∃ p ∈ packs, (name, a) ∈ p.units := by
  rw [meant, Option.or_eq_some_iff] at h
  rcases h with h | ⟨-, h⟩
  · exact .inl ⟨List.mem_of_find?_eq_some h, by simpa using List.find?_some h⟩
  · obtain ⟨p, hp, hget⟩ := List.exists_of_findSome?_eq_some h
    exact .inr ⟨p, hp, Pack.mem_of_get? hget⟩

theorem isKeyed_meant {packs : List Pack} (hpacks : ∀ p ∈ packs, p.IsProper) :
    IsKeyed (meant units packs) := by
  intro name a h
  rcases meant_cases h with ⟨-, hname⟩ | ⟨p, hp, hmem⟩
  · exact hname
  · exact (hpacks p hp).own _ hmem

/-- The loader's look-up finds what dotted names mean. -/
theorem Holds.resolve_toOption (h : Holds d root F units) (hroot : root.text ≠ "")
    (hmore : more.IsPacked) (hname : Naming.IsDotted name) :
    (ClassPath.resolve d (.folder root :: more) name).toOption =
      meant units (archives more) name := by
  rw [ClassPath.resolve, ClassPath.find?, meant]
  by_cases hmem : name ∈ units.map (·.identifier)
  · obtain ⟨a, ha, rfl⟩ := List.mem_map.mp hmem
    rw [h.find?_of_mem ha, find?_of_mem_units h.distinct ha, Option.some_or]
    rfl
  · have hnone : units.find? (fun a => a.identifier == name) = none := by
      rw [List.find?_eq_none]
      exact fun a ha he => hmem (List.mem_map.mpr ⟨a, ha, by simpa using he⟩)
    rw [h.find?_of_not_mem hroot hname hmem, hnone, Option.none_or]
    simp only [hmore.find?_eq_findSome?]
    cases (archives more).findSome? fun p => p.get? name <;> rfl

theorem Holds.follows (h : Holds d root F units) (hroot : root.text ≠ "") (hmore : more.IsPacked)
    (hbases : ∀ a ∈ units, ∀ base ∈ a.extends?, Naming.IsDotted base)
    (hpacks : ∀ p ∈ archives more, p.IsProper) :
    Instance.Follows (meant units (archives more)) (ClassPath.resolve d (.folder root :: more))
      Naming.IsDotted := by
  refine ⟨fun name hname => h.resolve_toOption hroot hmore hname, fun name b hb => ?_⟩
  rcases meant_cases hb with ⟨hmem, -⟩ | ⟨p, hp, hmem⟩
  · exact hbases b hmem
  · exact (hpacks p hp).bases _ hmem

theorem length_keys_le (d : Disk) (cp : ClassPath) :
    ((archives cp).flatMap fun p => p.units.map Prod.fst).length + d.entries.length ≤
      cp.unitBound d := by
  induction cp with
  | nil => simp [archives, ClassPath.unitBound]
  | cons entry cp ih =>
    rw [ClassPath.unitBound] at ih ⊢
    cases entry with
    | folder path => simpa [archives, ClassPath.Entry.packed] using ih
    | pack path content =>
      simp only [archives, ClassPath.Entry.packed, List.filterMap_cons, List.flatMap_cons,
        List.length_append, List.length_map] at ih ⊢
      omega

/-- A chain is not longer than there are units: no identifier comes twice in it. -/
theorem Holds.length_chain_le (h : Holds d root F units)
    (hpacks : ∀ p ∈ archives more, p.IsProper) (ha : a ∈ units) {chain : List Artifact}
    (hchain : Chain (meant units (archives more)) a chain) :
    chain.length ≤ ClassPath.unitBound d (.folder root :: more) + 2 := by
  have hfound : meant units (archives more) a.identifier = some a := meant_of_mem h.distinct ha
  have hkeyed : IsKeyed (meant units (archives more)) := isKeyed_meant hpacks
  have hsub : chain.map (·.identifier) ⊆
      units.map (·.identifier) ++ (archives more).flatMap fun p => p.units.map Prod.fst := by
    intro identifier hmem
    obtain ⟨b, hb, rfl⟩ := List.mem_map.mp hmem
    rw [List.mem_append, List.mem_flatMap]
    rcases meant_cases (hchain.find_of_mem hkeyed hfound b hb) with ⟨hb, -⟩ | ⟨p, hp, hb⟩
    · exact .inl (List.mem_map_of_mem hb)
    · exact .inr ⟨p, hp, List.mem_map.mpr ⟨_, hb, rfl⟩⟩
  have hlength := (List.subperm_of_subset (hchain.nodup hkeyed hfound) hsub).length_le
  have hkeys := length_keys_le d more
  have hunits := h.length_le
  have hbound : ClassPath.unitBound d (.folder root :: more) = ClassPath.unitBound d more := by
    simp [ClassPath.unitBound, ClassPath.Entry.packed]
  rw [List.length_map, List.length_append, List.length_map] at hlength
  omega

/-- Loading gives the contexts of each unit, in the order of the paths of their files. -/
theorem Holds.contexts (h : Holds d root F units) (hroot : root.text ≠ "")
    (hmore : more.IsPacked) (hbases : ∀ a ∈ units, ∀ base ∈ a.extends?, Naming.IsDotted base)
    (hpacks : ∀ p ∈ archives more, p.IsProper) {base : String}
    (hderive : ∀ a ∈ units,
      Naming.derive (Naming.artifactPath root a.identifier) base = .ok a.identifier) :
    ∃ (ordered : List Artifact) (contexts : Artifact → List Context), ordered.Perm units ∧
      (ordered.Pairwise fun a b => (Naming.artifactPath root a.identifier).le
        (Naming.artifactPath root b.identifier) = true) ∧
      (∀ a ∈ units, Gives (meant units (archives more)) a (contexts a)) ∧
      (LoadReport.ofFolder d (.folder root :: more) root base true).instances.flatMap
        Context.ofInstance = ordered.flatMap contexts := by
  obtain ⟨ordered, hperm, hsorted, hpaths⟩ := exists_ordered root units
  refine ⟨ordered, fun a => (LoadReport.ofUnit d (.folder root :: more)
    (Naming.artifactPath root a.identifier) a).instances.flatMap Context.ofInstance, hperm, hsorted,
    fun a ha => ?_, ?_⟩
  · exact LoadReport.gives_ofUnit (h.follows hroot hmore hbases hpacks) (hbases a ha)
      (isKeyed_meant hpacks) (meant_of_mem h.distinct ha)
      fun chain hchain => h.length_chain_le hpacks ha hchain
  · rw [LoadReport.instances_ofFolder, h.collect_eq, hpaths, List.flatMap_map, List.flatMap_assoc]
    refine List.flatMap_congr fun a ha => ?_
    have hmem := hperm.mem_iff.mp ha
    have hresolve : ClassPath.resolve d (.folder root :: more) a.identifier = .ok a := by
      simp only [ClassPath.resolve, ClassPath.find?, h.find?_of_mem hmem]
    rw [LoadReport.instances_ofPath (hderive a hmem) hresolve]

end Batch

end LiveRules
