import LiveRules.Proofs.Load.Walks

/-!
Class paths in use. What a class path remembers is what it would find anyway, so its look-ups stay
the same over files that do not change; and it can only find units that it remembers, that its packs
hold or that lie on the disk. So every walk up the bases of a unit comes to its end.
-/

namespace LiveRules

open Instance (Steady after)

/-- The units in the files of a disk. -/
def Disk.units (d : Disk) : List Artifact :=
  d.entries.filterMap fun x =>
    match x.2 with
    | .file content _ => (Text.decode? content).bind Artifact.ofText?
    | .folder => none

theorem Artifact.mem_units_of_read {d : Disk} {p : Path} {a : Artifact} (h : read d p = .ok a) :
    a ∈ d.units := by
  simp only [read, Disk.readText, Disk.read, bind, Except.bind] at h
  cases hp : d.place? p with
  | error e => simp [hp] at h
  | ok P =>
    simp only [hp] at h
    cases htrouble : d.trouble? .read P with
    | some t => simp [htrouble] at h
    | none =>
      simp only [htrouble] at h
      cases hP : d.entry? P with
      | none => simp [hP] at h
      | some entry =>
        cases entry with
        | folder => simp [hP] at h
        | file content executable =>
          have hne : P ≠ [] := by
            rintro rfl
            cases hP
          rw [Disk.lookup_entries hne] at hP
          refine List.mem_filterMap.mpr ⟨_, Disk.mem_of_lookup hP, ?_⟩
          rw [Disk.entry?, if_neg hne] at h
          simp only [hP] at h
          cases hs : Text.decode? content with
          | none => simp [hs] at h
          | some s =>
            simp only [hs] at h
            cases ha : ofText? s with
            | none => simp [ha] at h
            | some b =>
              simp only [ha, Except.ok.injEq] at h
              simp [hs, ha, h]

namespace ClassPath

variable {d : Disk} {cp : ClassPath} {name : String} {a : Artifact}

/-- What a class path finds lies on the disk or in one of its packs. -/
theorem mem_of_find? (h : cp.find? d name = .ok (some a)) :
    a ∈ d.units ++ (cp.flatMap Entry.packed).map (·.2) := by
  induction cp with
  | nil => cases h
  | cons entry cp ih =>
    have hmore (hmem : a ∈ d.units ++ (cp.flatMap Entry.packed).map (·.2)) :
        a ∈ d.units ++ ((entry :: cp).flatMap Entry.packed).map (·.2) := by
      rw [List.flatMap_cons, List.map_append]
      rcases List.mem_append.mp hmem with hmem | hmem
      · exact List.mem_append_left _ hmem
      · exact List.mem_append_right _ (List.mem_append_right _ hmem)
    rw [find?] at h
    cases hentry : entry.find? d name with
    | error e => simp [hentry] at h
    | ok answer =>
      cases answer with
      | none => exact hmore (ih (by simpa [hentry] using h))
      | some b =>
        simp only [hentry, Except.ok.injEq, Option.some.injEq] at h
        subst h
        cases entry with
        | folder path =>
          rw [Entry.find?] at hentry
          split at hentry
          swap
          · cases hentry
          cases hread : Artifact.read d (Naming.artifactPath path name) with
          | error e => simp [hread] at hentry
          | ok c =>
            simp only [hread, Except.ok.injEq, Option.some.injEq] at hentry
            exact List.mem_append_left _ (hentry ▸ Artifact.mem_units_of_read hread)
        | pack path content =>
          obtain ⟨x, hx, hxb⟩ := Option.map_eq_some_iff.mp (Except.ok.inj hentry)
          refine List.mem_append_right _ (List.mem_map.mpr ⟨x, ?_, hxb⟩)
          rw [List.flatMap_cons]
          exact List.mem_append_left _ (List.mem_of_find?_eq_some hx)

theorem find?_of_resolve (h : cp.resolve d name = .ok a) : cp.find? d name = .ok (some a) := by
  rw [resolve] at h
  split at h
  · cases h
  · cases h
  · rename_i b hb
    rw [hb, Except.ok.inj h]

namespace Session

variable {s : Session}

theorem lookup_keep (h : s.lookup d name = .ok a) : (s.keep name a).lookup d = s.lookup d := by
  funext other
  rw [keep]
  split
  · rfl
  by_cases hother : other = name
  · subst hother
    simp [lookup, ← h]
  · simp [lookup, List.lookup_cons, beq_false_of_ne hother]

/-- A class path that is used over unchanging files answers the same from one look-up to the
next. -/
theorem steady (s : Session) (d : Disk) : Steady (finder d).resolve (s.lookup d) fun t =>
    t.entries = s.entries ∧ t.lookup d = s.lookup d := by
  constructor
  · rintro name t ⟨-, hlookup⟩
    rw [finder, ← hlookup]
    dsimp only
    rw [resolve]
    cases t.lookup d name <;> rfl
  · rintro name t ⟨hentries, hlookup⟩
    rw [finder]
    dsimp only
    rw [resolve]
    cases hanswer : t.lookup d name with
    | error e => exact ⟨hentries, hlookup⟩
    | ok a =>
      refine ⟨?_, (lookup_keep hanswer).trans hlookup⟩
      dsimp only
      rw [keep]
      split
      · exact hentries
      · exact hentries

/-- The units that a class path can find, those it has found before included. -/
def units (s : Session) (d : Disk) : List Artifact :=
  s.resolved.map (·.2) ++ (d.units ++ (s.entries.flatMap Entry.packed).map (·.2))

theorem mem_units_of_lookup (h : s.lookup d name = .ok a) : a ∈ s.units d := by
  rw [lookup] at h
  cases hkept : s.resolved.lookup name with
  | some b =>
    simp only [hkept, Except.ok.injEq] at h
    obtain ⟨front, back, hresolved, -⟩ := List.lookup_eq_some_iff.mp hkept
    refine List.mem_append_left _ (List.mem_map.mpr ⟨(name, b), ?_, h⟩)
    rw [hresolved]
    simp
  | none =>
    -- what is not remembered is found now
    simp only [hkept] at h
    exact List.mem_append_right _ (mem_of_find? (find?_of_resolve h))

theorem length_units_le (s : Session) (d : Disk) :
    (s.units d).length ≤ s.entries.unitBound d + s.resolved.length := by
  have hdisk : d.units.length ≤ d.entries.length := List.length_filterMap_le _ _
  simp only [units, unitBound, List.length_append, List.length_map]
  omega

/-- The identifiers that a class path can meet are finitely many. -/
theorem declaredBy_subset (s : Session) (d : Disk) :
    declaredBy (found (s.lookup d)) ⊆ ↑((s.units d).map (·.identifier)).toFinset := by
  rintro identifier ⟨name, b, hb, rfl⟩
  rw [List.coe_toFinset]
  exact List.mem_map_of_mem (mem_units_of_lookup (found_eq_some_iff.mp hb))

theorem finite_declaredBy (s : Session) (d : Disk) : (declaredBy (found (s.lookup d))).Finite :=
  (Finset.finite_toSet _).subset (s.declaredBy_subset d)

theorem ncard_declaredBy_le (s : Session) (d : Disk) :
    (declaredBy (found (s.lookup d))).ncard ≤ s.entries.unitBound d + s.resolved.length := by
  refine (Set.ncard_le_ncard (s.declaredBy_subset d) (Finset.finite_toSet _)).trans ?_
  rw [Set.ncard_coe_finset]
  refine (List.toFinset_card_le _).trans ?_
  rw [List.length_map]
  exact s.length_units_le d

/-- No walk over a class path takes as many steps as it may. -/
theorem length_lt_bound {passed : List Artifact} {c : Artifact}
    (h : Leads (found (s.lookup d)) a passed c) (hdistinct : (passed.map (·.identifier)).Nodup) :
    passed.length < (finder d).bound s := by
  have hlength := h.length_le (List.subset_append_left _ _) hdistinct (s.finite_declaredBy d)
  have hinsert := Set.ncard_insert_le a.identifier (declaredBy (found (s.lookup d)))
  have hdeclared := s.ncard_declaredBy_le d
  simp only [finder]
  omega

end Session

end ClassPath

/-! ### The end of a walk -/

namespace Finder

variable {σ : Type} {f : Finder σ} {keeps : σ → Prop} {s : σ} {a c : Artifact}
variable {resolve : String → Except LoadError Artifact} {passed : List Artifact}
variable {r : Except LoadError (List Artifact)} {names : List String}

/-- An instance is made of the units on a walk. -/
theorem create_of_ends (h : Steady f.resolve resolve keeps) (hs : keeps s)
    (habstract : a.isAbstract = false) (hconstructible : a.constructible = true)
    (hleads : Leads (found resolve) a passed c) (hdistinct : (passed.map (·.identifier)).Nodup)
    (hends : Ends (found resolve) passed c r names) (hsteps : passed.length < f.bound s) :
    f.create a s = (r.map fun units => ⟨a, Instance.methodsOf units⟩,
      after f.resolve (passed.filterMap (·.extends?) ++ names) s) := by
  rw [create, habstract, hconstructible, h.climb_of_ends hs hleads hdistinct hends hsteps]
  cases r <;> rfl

/-- The same look-ups, counted. -/
def counted (f : Finder σ) : Finder (Nat × σ) :=
  ⟨fun name s => ((f.resolve name s.2).1, s.1 + 1, (f.resolve name s.2).2), fun s => f.bound s.2⟩

theorem steady_counted (h : Steady f.resolve resolve keeps) :
    Steady f.counted.resolve resolve fun s => keeps s.2 :=
  ⟨fun name s hs => h.answer name s.2 hs, fun name s hs => h.keep name s.2 hs⟩

theorem after_counted (n : Nat) (s : σ) (names : List String) :
    after f.counted.resolve names (n, s) = (n + names.length, after f.resolve names s) := by
  induction names generalizing n s with
  | nil => rfl
  | cons name rest ih =>
    have hstep : after f.counted.resolve (name :: rest) (n, s) =
        after f.counted.resolve rest (n + 1, (f.resolve name s).2) := rfl
    rw [hstep, ih, List.length_cons, Nat.add_right_comm, Nat.add_assoc]
    rfl

end Finder

theorem nodup_identifiers_concat {passed : List Artifact} {c : Artifact} :
    ((passed ++ [c]).map (·.identifier)).Nodup ↔
      (passed.map (·.identifier)).Nodup ∧ c.identifier ∉ passed.map (·.identifier) := by
  rw [List.map_append, List.map_singleton, ← List.concat_eq_append, List.nodup_concat]
  exact and_comm

namespace ClassPath.Session

variable {s : Session} {d : Disk} {a : Artifact}

/-- Every walk has an end, which says what comes of the instance. -/
theorem exists_ends (s : Session) (d : Disk) (a : Artifact) : ∃ passed c r names,
    Leads (found (s.lookup d)) a passed c ∧ (passed.map (·.identifier)).Nodup ∧
      Ends (found (s.lookup d)) passed c r names := by
  obtain ⟨passed, c, hleads, hdistinct, hlength | ⟨r, names, hends⟩⟩ :=
    exists_leads (found (s.lookup d)) a ((finder d).bound s)
  · -- a walk of that length would meet more identifiers than there are
    exact absurd hlength (length_lt_bound hleads hdistinct).ne
  · exact ⟨passed, c, r, names, hleads, hdistinct, hends⟩

/-- A walk looks up one base for each unit that it has passed, and for the last one if that base is
not found: at most as many bases as there are identifiers. -/
theorem length_asked_le {passed : List Artifact} {c : Artifact}
    {r : Except LoadError (List Artifact)} {names : List String}
    (hleads : Leads (found (s.lookup d)) a passed c) (hdistinct : (passed.map (·.identifier)).Nodup)
    (hends : Ends (found (s.lookup d)) passed c r names) :
    (passed.filterMap (·.extends?) ++ names).length ≤
      (insert a.identifier (declaredBy (found (s.lookup d)))).ncard := by
  have hfinite := s.finite_declaredBy d
  have hpassed := hleads.length_le (List.subset_append_left _ _) hdistinct hfinite
  rw [List.length_append, hleads.length_bases]
  cases hends with
  | last => exact hpassed
  | cycle => exact hpassed
  | lost hnew =>
    have hall := hleads.length_le (List.Subset.refl _)
      (nodup_identifiers_concat.mpr ⟨hdistinct, hnew⟩) hfinite
    simpa using hall

variable {passed : List Artifact} {c : Artifact} {r : Except LoadError (List Artifact)}
variable {names : List String}

/-- What comes of an instance is said by the end of the walk. -/
theorem create_of_ends (habstract : a.isAbstract = false) (hconstructible : a.constructible = true)
    (hleads : Leads (found (s.lookup d)) a passed c) (hdistinct : (passed.map (·.identifier)).Nodup)
    (hends : Ends (found (s.lookup d)) passed c r names) :
    s.create d a = (r.map fun units => ⟨a, Instance.methodsOf units⟩,
      after (finder d).resolve (passed.filterMap (·.extends?) ++ names) s) :=
  Finder.create_of_ends (s.steady d) ⟨rfl, rfl⟩ habstract hconstructible hleads hdistinct hends
    (length_lt_bound hleads hdistinct)

/-- Counting the look-ups changes nothing else, and there are as many as there are identifiers at
most. -/
theorem create_counted (s : Session) (d : Disk) (habstract : a.isAbstract = false)
    (hconstructible : a.constructible = true) :
    ∃ n, (finder d).counted.create a (0, s) = ((s.create d a).1, n, (s.create d a).2) ∧
      n ≤ (insert a.identifier (declaredBy (found (s.lookup d)))).ncard := by
  obtain ⟨passed, c, r, names, hleads, hdistinct, hends⟩ := s.exists_ends d a
  refine ⟨_, ?_, length_asked_le hleads hdistinct hends⟩
  rw [create_of_ends habstract hconstructible hleads hdistinct hends,
    Finder.create_of_ends (Finder.steady_counted (s.steady d)) ⟨rfl, rfl⟩ habstract hconstructible
      hleads hdistinct hends (length_lt_bound hleads hdistinct), Finder.after_counted, Nat.zero_add]

theorem isOk_create_iff (habstract : a.isAbstract = false)
    (hconstructible : a.constructible = true) :
    (∃ i, (s.create d a).1 = .ok i) ↔ ∃ passed c, Leads (found (s.lookup d)) a passed c ∧
      ((passed ++ [c]).map (·.identifier)).Nodup ∧ c.extends? = none := by
  constructor
  · rintro ⟨i, hi⟩
    obtain ⟨passed, c, r, names, hleads, hdistinct, hends⟩ := s.exists_ends d a
    rw [create_of_ends habstract hconstructible hleads hdistinct hends] at hi
    cases hends with
    | last hnew hnone =>
      exact ⟨passed, c, hleads, nodup_identifiers_concat.mpr ⟨hdistinct, hnew⟩, hnone⟩
    | cycle => cases hi
    | lost => cases hi
  · rintro ⟨passed, c, hleads, hdistinct, hnone⟩
    rw [nodup_identifiers_concat] at hdistinct
    rw [create_of_ends habstract hconstructible hleads hdistinct.1 (.last hdistinct.2 hnone)]
    exact ⟨_, rfl⟩

theorem create_eq_cycle_iff (habstract : a.isAbstract = false)
    (hconstructible : a.constructible = true) {identifier : String} :
    (s.create d a).1 = .error (.cycle identifier) ↔ ∃ passed c,
      Leads (found (s.lookup d)) a passed c ∧ (passed.map (·.identifier)).Nodup ∧
        c.identifier = identifier ∧ identifier ∈ passed.map (·.identifier) := by
  constructor
  · intro hcycle
    obtain ⟨passed, c, r, names, hleads, hdistinct, hends⟩ := s.exists_ends d a
    rw [create_of_ends habstract hconstructible hleads hdistinct hends] at hcycle
    cases hends with
    | last => cases hcycle
    | cycle hmet =>
      cases hcycle
      exact ⟨passed, c, hleads, hdistinct, rfl, hmet⟩
    | lost => cases hcycle
  · rintro ⟨passed, c, hleads, hdistinct, rfl, hmet⟩
    rw [create_of_ends habstract hconstructible hleads hdistinct (.cycle hmet)]
    rfl

theorem create_eq_unresolvedBase_iff (habstract : a.isAbstract = false)
    (hconstructible : a.constructible = true) {identifier base : String} :
    (s.create d a).1 = .error (.unresolvedBase identifier base) ↔ ∃ passed c,
      Leads (found (s.lookup d)) a passed c ∧ ((passed ++ [c]).map (·.identifier)).Nodup ∧
        c.identifier = identifier ∧ c.extends? = some base ∧
          found (s.lookup d) base = none := by
  constructor
  · intro hlost
    obtain ⟨passed, c, r, names, hleads, hdistinct, hends⟩ := s.exists_ends d a
    rw [create_of_ends habstract hconstructible hleads hdistinct hends] at hlost
    cases hends with
    | last => cases hlost
    | cycle => cases hlost
    | lost hnew hbase hnone =>
      cases hlost
      exact ⟨passed, c, hleads, nodup_identifiers_concat.mpr ⟨hdistinct, hnew⟩, rfl, hbase, hnone⟩
  · rintro ⟨passed, c, hleads, hdistinct, rfl, hbase, hlost⟩
    rw [nodup_identifiers_concat] at hdistinct
    rw [create_of_ends habstract hconstructible hleads hdistinct.1 (.lost hdistinct.2 hbase hlost)]
    rfl

/-- A walk up the bases comes to an end, after at most as many look-ups as there are identifiers
among that of the unit and those that the units of the class path declare, which are finitely many.
There is an instance if the bases lead to a unit without a base before an identifier comes again, a
cycle at the first identifier that comes again, and an unresolved base at the first unit whose base
is not found. -/
theorem create_ends (s : Session) (d : Disk) (a : Artifact) (habstract : a.isAbstract = false)
    (hconstructible : a.constructible = true) :
    (declaredBy (found (s.lookup d))).Finite ∧
    (∃ n, (finder d).counted.create a (0, s) = ((s.create d a).1, n, (s.create d a).2) ∧
      n ≤ (insert a.identifier (declaredBy (found (s.lookup d)))).ncard) ∧
    ((∃ i, (s.create d a).1 = .ok i) ↔ ∃ passed c, Leads (found (s.lookup d)) a passed c ∧
      ((passed ++ [c]).map (·.identifier)).Nodup ∧ c.extends? = none) ∧
    (∀ identifier, (s.create d a).1 = .error (.cycle identifier) ↔ ∃ passed c,
      Leads (found (s.lookup d)) a passed c ∧ (passed.map (·.identifier)).Nodup ∧
        c.identifier = identifier ∧ identifier ∈ passed.map (·.identifier)) ∧
    ∀ identifier base, (s.create d a).1 = .error (.unresolvedBase identifier base) ↔
      ∃ passed c, Leads (found (s.lookup d)) a passed c ∧
        ((passed ++ [c]).map (·.identifier)).Nodup ∧ c.identifier = identifier ∧
          c.extends? = some base ∧ found (s.lookup d) base = none :=
  ⟨s.finite_declaredBy d, create_counted s d habstract hconstructible,
    isOk_create_iff habstract hconstructible,
    fun _ => create_eq_cycle_iff habstract hconstructible,
    fun _ _ => create_eq_unresolvedBase_iff habstract hconstructible⟩

/-- A unit whose base declares the unit's own identifier, under another key. -/
def selfMade : Artifact :=
  { identifier := "l.A", kind := .rule, constructible := true, extends? := some "l.B" }

def disguised : Session :=
  { entries := [.pack ⟨"l.pack"⟩ ⟨"", [("l.B", { selfMade with extends? := some "l.C" })]⟩] }

/-- The identifier comes again although no name is looked up twice; the base that comes after it is
not looked up. -/
theorem create_ends_disguised : selfMade.isAbstract = false ∧ selfMade.constructible = true ∧
    (disguised.create { entries := [] } selfMade).1 = .error (.cycle "l.A") :=
  ⟨rfl, rfl, ((create_ends disguised { entries := [] } selfMade rfl rfl).2.2.2.1 "l.A").mpr
    ⟨[selfMade], { selfMade with extends? := some "l.C" }, .up rfl rfl .here,
      List.nodup_singleton _, rfl, List.mem_singleton_self _⟩⟩

end ClassPath.Session

end LiveRules
