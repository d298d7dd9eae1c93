import LiveRules.Proofs.Json.Units
import Mathlib.Data.List.Induction
import Mathlib.Data.List.Nodup
import Mathlib.Data.List.Pairwise
import Mathlib.Data.String.Basic

/-!
Units under increasing keys. Inserting replaces what a key had and keeps the keys increasing, so a
pack holds one unit for each identifier, and it is read from its stored form as it was.
-/

namespace LiveRules.Pack

variable {α : Type} {m : List (String × α)} {k key : String} {v value : α}

/-- Each key is greater than the ones in front of it. -/
def Increasing (m : List (String × α)) : Prop := m.Pairwise fun x y => x.1 < y.1

theorem Increasing.nodup_keys (h : Increasing m) : (m.map (·.1)).Nodup := by
  rw [List.nodup_iff_pairwise_ne, List.pairwise_map]
  exact List.Pairwise.imp (fun hlt => ne_of_lt hlt) h

/-- Increasing keys leave one order for the same entries. -/
theorem Increasing.eq_of_mem_iff {n : List (String × α)} (hm : Increasing m) (hn : Increasing n)
    (h : ∀ x, x ∈ m ↔ x ∈ n) : m = n := by
  have hperm : m.Perm n :=
    (List.perm_ext_iff_of_nodup hm.nodup_keys.of_map hn.nodup_keys.of_map).mpr h
  exact hperm.eq_of_pairwise (fun x y _ _ hxy hyx => absurd hxy (lt_asymm hyx)) hm hn

theorem mem_insert (h : Increasing m) :
    (k, v) ∈ insert key value m ↔ k = key ∧ v = value ∨ k ≠ key ∧ (k, v) ∈ m := by
  induction m with
  | nil => simp [insert]
  | cons x m ih =>
    obtain ⟨j, w⟩ := x
    obtain ⟨hfirst, hrest⟩ := List.pairwise_cons.mp h
    have hbehind : ∀ v, (j, v) ∉ m := fun v hv => lt_irrefl j (hfirst _ hv)
    rw [insert]
    by_cases hj : j = key
    · subst hj
      rw [if_pos rfl, List.mem_cons, List.mem_cons, Prod.mk.injEq, Prod.mk.injEq]
      constructor
      · rintro (heq | hmem)
        · exact .inl heq
        · exact .inr ⟨fun hk => hbehind v (hk ▸ hmem), .inr hmem⟩
      · rintro (heq | ⟨hk, heq | hmem⟩)
        · exact .inl heq
        · exact absurd heq.1 hk
        · exact .inr hmem
    · rw [if_neg hj]
      by_cases hlt : key < j
      · have hkey : ∀ v, (key, v) ∉ (j, w) :: m := by
          intro v hv
          rcases List.mem_cons.mp hv with he | hv
          · exact hj (Prod.mk.inj he).1.symm
          · exact lt_asymm hlt (hfirst _ hv)
        rw [if_pos hlt, List.mem_cons, Prod.mk.injEq]
        constructor
        · rintro (heq | hmem)
          · exact .inl heq
          · exact .inr ⟨fun hk => hkey v (hk ▸ hmem), hmem⟩
        · rintro (heq | ⟨-, hmem⟩)
          · exact .inl heq
          · exact .inr hmem
      · rw [if_neg hlt, List.mem_cons, List.mem_cons, ih hrest, Prod.mk.injEq]
        constructor
        · rintro (heq | heq | hmem)
          · exact .inr ⟨fun hk => hj (heq.1 ▸ hk), .inl heq⟩
          · exact .inl heq
          · exact .inr ⟨hmem.1, .inr hmem.2⟩
        · rintro (heq | ⟨hk, heq | hmem⟩)
          · exact .inr (.inl heq)
          · exact .inl heq
          · exact .inr (.inr ⟨hk, hmem⟩)

theorem Increasing.insert (h : Increasing m) (key : String) (value : α) :
    Increasing (insert key value m) := by
  induction m with
  | nil => exact List.pairwise_singleton _ _
  | cons x m ih =>
    obtain ⟨j, w⟩ := x
    obtain ⟨hfirst, hrest⟩ := List.pairwise_cons.mp h
    rw [Pack.insert]
    by_cases hj : j = key
    · rw [if_pos hj]
      exact List.pairwise_cons.mpr ⟨fun y hy => hj ▸ hfirst y hy, hrest⟩
    · rw [if_neg hj]
      by_cases hlt : key < j
      · rw [if_pos hlt]
        refine List.pairwise_cons.mpr ⟨fun y hy => ?_, h⟩
        rcases List.mem_cons.mp hy with rfl | hy
        · exact hlt
        · exact lt_trans hlt (hfirst y hy)
      · rw [if_neg hlt]
        refine List.pairwise_cons.mpr ⟨fun y hy => ?_, ih hrest⟩
        rcases (mem_insert hrest).mp hy with ⟨hkey, -⟩ | ⟨-, hmem⟩
        · show j < y.1
          rw [hkey]
          exact lt_of_le_of_ne (not_lt.mp hlt) hj
        · exact hfirst y hmem

theorem insert_of_forall_lt (h : ∀ x ∈ m, x.1 < key) :
    insert key value m = m ++ [(key, value)] := by
  induction m with
  | nil => rfl
  | cons x m ih =>
    obtain ⟨j, w⟩ := x
    have hj : j < key := h (j, w) List.mem_cons_self
    rw [insert, if_neg (ne_of_lt hj), if_neg (lt_asymm hj),
      ih fun y hy => h y (List.mem_cons_of_mem _ hy), List.cons_append]

theorem keyed_append (xs : List (String × α)) (x : String × α) :
    keyed (xs ++ [x]) = insert x.1 x.2 (keyed xs) := by
  simp only [keyed, List.foldl_append, List.foldl_cons, List.foldl_nil]

theorem increasing_keyed (xs : List (String × α)) : Increasing (keyed xs) := by
  induction xs using List.reverseRecOn with
  | nil => exact List.Pairwise.nil
  | append_singleton xs x ih =>
    rw [keyed_append]
    exact ih.insert x.1 x.2

/-- Increasing keys stay as they are. -/
theorem keyed_of_increasing (h : Increasing m) : keyed m = m := by
  induction m using List.reverseRecOn with
  | nil => rfl
  | append_singleton m x ih =>
    obtain ⟨hm, -, hlast⟩ := List.pairwise_append.mp h
    rw [keyed_append, ih hm, insert_of_forall_lt fun y hy => hlast y hy x List.mem_cons_self]

theorem mem_of_mem_keyed {xs : List (String × α)} (h : (k, v) ∈ keyed xs) : (k, v) ∈ xs := by
  induction xs using List.reverseRecOn with
  | nil => exact h
  | append_singleton xs x ih =>
    rw [keyed_append, mem_insert (increasing_keyed xs)] at h
    rcases h with ⟨rfl, rfl⟩ | ⟨-, hmem⟩
    · exact List.mem_append_right xs (List.mem_singleton_self x)
    · exact List.mem_append_left _ (ih hmem)

/-- Where no key repeats, what is collected is what was there. -/
theorem mem_keyed {xs : List (String × α)} (h : (xs.map (·.1)).Nodup) :
    (k, v) ∈ keyed xs ↔ (k, v) ∈ xs := by
  induction xs using List.reverseRecOn with
  | nil => rfl
  | append_singleton xs x ih =>
    rw [List.map_append, List.nodup_append] at h
    have hx : ∀ v, (x.1, v) ∉ xs := fun v hv =>
      h.2.2 x.1 (List.mem_map.mpr ⟨_, hv, rfl⟩) x.1 (by simp) rfl
    rw [keyed_append, mem_insert (increasing_keyed xs), ih h.1, List.mem_append,
      List.mem_singleton]
    constructor
    · rintro (⟨rfl, rfl⟩ | ⟨-, hmem⟩)
      · exact .inr rfl
      · exact .inl hmem
    · rintro (hmem | heq)
      · exact .inr ⟨fun hk => hx v (hk ▸ hmem), hmem⟩
      · exact .inl ⟨congrArg Prod.fst heq, congrArg Prod.snd heq⟩

/-! ### Stored packs -/

variable {p : Pack}

/-- The pack that is read where this one was stored. -/
def reread (p : Pack) : Pack := { p with units := p.units.map fun x => (x.1, x.2.reread) }

theorem reread_of_comesBack (h : ∀ x ∈ p.units, x.2.ComesBack) : p.reread = p := by
  have hunits : p.units.map (fun x => (x.1, x.2.reread)) = p.units := by
    refine (List.map_congr_left fun x hx => ?_).trans (List.map_id _)
    rw [Artifact.reread_of_comesBack (h x hx)]
    rfl
  rw [reread, hunits]

theorem Increasing.map {β : Type} (h : Increasing m) (f : α → β) :
    Increasing (m.map fun x => (x.1, f x.2)) :=
  List.pairwise_map.mpr h

open Json in
/-- What is stored for a pack with increasing keys is read. -/
theorem ofText?_text (hkeys : Increasing p.units) : ofText? p.text = some p.reread := by
  have hunits : unitsOfJson? (.fields (p.units.map fun x => (x.1, x.2.toJson))) =
      some (p.units.map fun x => (x.1, x.2.reread)) := by
    rw [fields, List.map_map, unitsOfJson?, mapM_map_eq (k := fun x => (x.1, x.2.reread)),
      Option.map_some, keyed_of_increasing (hkeys.map Artifact.reread)]
    intro x _
    have hx := x.2.ofJsonWithin?_toJson (show 2 + 4 < depthLimit by decide)
    simp only [Function.comp_apply, Option.bind_eq_bind, Option.bind_some, hx]
  have hsound : p.toJson.isSound = true := by
    refine isSound_fields fun m hm => ?_
    simp only [List.mem_cons, List.not_mem_nil, or_false] at hm
    rcases hm with rfl | rfl
    · rfl
    · refine isSound_fields fun m hm => ?_
      obtain ⟨x, -, rfl⟩ := List.mem_map.mp hm
      exact x.2.isSound_toJson
  have hrecord := record?_given [("digest", some (.string p.digest)),
    ("units", some (.fields (p.units.map fun x => (x.1, x.2.toJson))))]
    ["digest", "units"] 2 rfl (by decide)
  have hjson : p.toJson = .fields (given [("digest", some (.string p.digest)),
    ("units", some (.fields (p.units.map fun x => (x.1, x.2.toJson))))]) := rfl
  rw [ofText?, text, parse?_pretty hsound, Option.bind_some, ofJson?, hjson, hrecord]
  simp only [List.map_cons, List.map_nil, required, Option.bind_some, hunits, Json.string, string?,
    Option.bind_eq_bind]
  rfl

theorem read_of_encode {d : Disk} {path : Path} (hkeys : Increasing p.units)
    (hp : d.read path = .ok (Text.encode p.text)) : read d path = .ok p.reread := by
  rw [read, Disk.readText_of_encode hp]
  simp only [ofText?_text hkeys]

theorem read_eq_ok {d : Disk} {path : Path} (hkeys : Increasing p.units)
    (h : ∀ x ∈ p.units, x.2.ComesBack) (hp : d.read path = .ok (Text.encode p.text)) :
    read d path = .ok p := by
  rw [read_of_encode hkeys hp, reread_of_comesBack h]

theorem increasing_ofUnits (units : List Artifact) : Increasing (ofUnits units).units :=
  increasing_keyed _

theorem mem_of_mem_ofUnits {units : List Artifact} {x : String × Artifact}
    (h : x ∈ (ofUnits units).units) : x.2 ∈ units := by
  obtain ⟨a, ha, heq⟩ := List.mem_map.mp (mem_of_mem_keyed h)
  exact (Prod.mk.inj heq).2 ▸ ha

theorem mem_ofUnits {units : List Artifact} (h : (units.map (·.identifier)).Nodup) {a : Artifact} :
    (k, a) ∈ (ofUnits units).units ↔ a ∈ units ∧ k = a.identifier := by
  show (k, a) ∈ keyed (units.map fun a => (a.identifier, a)) ↔ _
  rw [mem_keyed (by rw [List.map_map]; exact h), List.mem_map]
  constructor
  · rintro ⟨b, hb, heq⟩
    obtain ⟨rfl, rfl⟩ := Prod.mk.inj heq
    exact ⟨hb, rfl⟩
  · rintro ⟨ha, rfl⟩
    exact ⟨a, ha, rfl⟩

/-- The order of units does not matter to their pack. -/
theorem ofUnits_eq_of_perm {units more : List Artifact} (hperm : units.Perm more)
    (h : (units.map (·.identifier)).Nodup) : ofUnits units = ofUnits more := by
  have hunits : (ofUnits units).units = (ofUnits more).units := by
    refine (increasing_ofUnits units).eq_of_mem_iff (increasing_ofUnits more) fun x => ?_
    rw [mem_ofUnits (k := x.1) h, mem_ofUnits (k := x.1) ((hperm.map _).nodup_iff.mp h),
      hperm.mem_iff]
  exact congrArg (fun us => (⟨(ContentHash.ofText (digestInput us)).hex, us⟩ : Pack)) hunits

theorem length_ofUnits {units : List Artifact} (h : (units.map (·.identifier)).Nodup) :
    (ofUnits units).units.length = units.length := by
  have hkeyed : (units.map fun a => (a.identifier, a)).Nodup :=
    List.Nodup.of_map Prod.fst (by rwa [List.map_map])
  have hperm : (ofUnits units).units.Perm (units.map fun a => (a.identifier, a)) := by
    refine (List.perm_ext_iff_of_nodup (increasing_ofUnits units).nodup_keys.of_map hkeyed).mpr
      fun x => ?_
    rw [mem_ofUnits (k := x.1) h, List.mem_map]
    constructor
    · rintro ⟨hx, hk⟩
      exact ⟨x.2, hx, Prod.ext hk.symm rfl⟩
    · rintro ⟨a, ha, rfl⟩
      exact ⟨ha, rfl⟩
  rw [hperm.length_eq, List.length_map]

/-- Units that can each be read are read in turn. -/
theorem readAll_map {β : Type} {d : Disk} {path : β → Path} {unit : β → Artifact} {xs : List β}
    (h : ∀ x ∈ xs, Artifact.read d (path x) = .ok (unit x)) :
    readAll d (xs.map path) = .ok (xs.map unit) := by
  induction xs with
  | nil => rfl
  | cons x xs ih =>
    rw [List.map_cons, readAll, h x List.mem_cons_self]
    dsimp only
    rw [ih fun y hy => h y (List.mem_cons_of_mem x hy), List.map_cons]

end LiveRules.Pack
