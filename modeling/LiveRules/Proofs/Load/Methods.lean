import LiveRules.Proofs.Load.Sessions

/-!
The methods of an instance. They are those that the units of its chain declare, the nearest unit
first and each unit in its own order; a declaration whose name has come before is left out.
-/

namespace LiveRules

variable {ms : List Method} {m : Method} {name : String}

theorem mem_names_nearest : name ∈ (nearest ms).map (·.name) ↔ name ∈ ms.map (·.name) := by
  induction ms with
  | nil => rfl
  | cons m ms ih =>
    rw [nearest, List.map_cons, List.mem_cons, List.map_cons, List.mem_cons, ← ih]
    apply or_congr_right'
    intro hname
    simp only [List.mem_map, List.mem_filter, decide_eq_true_eq]
    constructor
    · rintro ⟨x, ⟨hx, -⟩, rfl⟩
      exact ⟨x, hx, rfl⟩
    · rintro ⟨x, hx, rfl⟩
      exact ⟨x, ⟨hx, hname⟩, rfl⟩

theorem names_nearest_nodup (ms : List Method) : ((nearest ms).map (·.name)).Nodup := by
  induction ms with
  | nil => exact List.nodup_nil
  | cons m ms ih =>
    rw [nearest, List.map_cons, List.nodup_cons]
    refine ⟨fun hmem => ?_, ih.sublist (List.filter_sublist.map _)⟩
    obtain ⟨x, hx, hname⟩ := List.mem_map.mp hmem
    exact of_decide_eq_true (List.mem_filter.mp hx).2 hname

/-- Under a name stands its first declaration. -/
theorem find?_nearest (ms : List Method) (name : String) :
    ((nearest ms).find? fun m => m.name == name) = ms.find? fun m => m.name == name := by
  induction ms with
  | nil => rfl
  | cons m ms ih =>
    rw [nearest, List.find?_cons, List.find?_cons]
    cases hm : m.name == name with
    | true => rfl
    | false =>
      -- what is filtered out has the name of the first declaration, not the one looked for
      have hne : m.name ≠ name := by simpa using hm
      dsimp only
      rw [List.find?_filter, ← ih]
      congr 1
      funext x
      by_cases hx : x.name = name
      · simp [hx, hne.symm]
      · simp [hx]

/-- One more declaration counts if no other has its name. -/
theorem nearest_concat (ms : List Method) (m : Method) : nearest (ms ++ [m]) =
    if m.name ∈ ms.map (·.name) then nearest ms else nearest ms ++ [m] := by
  rw [Instance.nearest_append]
  split
  · rename_i hm
    rw [← mem_names_nearest] at hm
    rw [List.filter_cons_of_neg (by simpa using hm)]
    exact List.append_nil _
  · rename_i hm
    rw [← mem_names_nearest] at hm
    rw [List.filter_cons_of_pos (by simpa using hm)]
    rfl

/-- A declaration counts if none of those before it has its name. -/
theorem nearest_eq (ms : List Method) : nearest ms =
    (ms.zipIdx.filter fun x => x.1.name ∉ (ms.take x.2).map (·.name)).map (·.1) := by
  induction ms using List.reverseRecOn with
  | nil => rfl
  | append_singleton ms m ih =>
    -- one more declaration at the end comes before none of the others
    have hbefore : (ms.zipIdx.filter fun x => x.1.name ∉ ((ms ++ [m]).take x.2).map (·.name)) =
        ms.zipIdx.filter fun x => x.1.name ∉ (ms.take x.2).map (·.name) := by
      apply List.filter_congr
      intro x hx
      have hlt : x.2 < ms.length := by simpa using (List.mem_zipIdx hx).2.1
      rw [List.take_append_of_le_length hlt.le]
    rw [List.zipIdx_append, List.filter_append, List.map_append, hbefore, ← ih, nearest_concat,
      List.zipIdx_singleton, Nat.zero_add]
    split
    · rename_i hm
      rw [List.filter_cons_of_neg (by simpa using hm)]
      exact (List.append_nil _).symm
    · rename_i hm
      rw [List.filter_cons_of_pos (by simpa using hm)]
      rfl

/-- The first declaration along some units is the first one of the nearest unit that has one. -/
theorem find?_methods (units : List Artifact) (p : Method → Bool) :
    (units.flatMap (·.methods)).find? p =
      (units.find? fun b => b.methods.any p).bind fun b => b.methods.find? p := by
  induction units with
  | nil => rfl
  | cons b units ih =>
    rw [List.flatMap_cons, List.find?_append, List.find?_cons, ih]
    cases hany : b.methods.any p with
    | true =>
      obtain ⟨m, hm⟩ := Option.isSome_iff_exists.mp (List.find?_isSome.mpr (by simpa using hany))
      rw [Option.bind_some, hm, Option.some_or]
    | false =>
      have hnone : b.methods.find? p = none := by
        rw [List.find?_eq_none]
        simpa using hany
      rw [hnone, Option.none_or]

namespace ClassPath.Session

variable {s : Session} {d : Disk} {a : Artifact} {i : Instance}

/-- An instance is made of the chain of its unit. -/
theorem exists_chain (h : (s.create d a).1 = .ok i) :
    ∃ chain, Chain (found (s.lookup d)) a chain ∧ i = ⟨a, Instance.methodsOf chain⟩ := by
  rw [create, Finder.create] at h
  split at h
  · cases h
  split at h
  · cases h
  have hclimb : (Instance.climb (finder d).resolve ((finder d).bound s) [] a s).1 =
      Instance.chain (s.lookup d) ((finder d).bound s) [] a := (s.steady d).climb_fst ⟨rfl, rfl⟩
  rcases hwalk : Instance.climb (finder d).resolve ((finder d).bound s) [] a s with ⟨r, t⟩
  rw [hwalk] at h hclimb
  cases r with
  | error e => cases h
  | ok chain =>
    have hfollows : Instance.Follows (found (s.lookup d)) (s.lookup d) fun _ => True :=
      ⟨fun _ _ => rfl, fun _ _ _ _ _ => trivial⟩
    exact ⟨chain, ((Instance.chain_eq_ok_iff hfollows fun _ _ => trivial).mp hclimb.symm).1,
      (Except.ok.inj h).symm⟩

/-- The methods of an instance have different names, and these are the names that the units of the
chain declare; under each stands the first declaration in the nearest unit that has one. They come
unit by unit, the nearest first, in the order of their declarations. -/
theorem methods_of_create (h : (s.create d a).1 = .ok i) :
    ∃ chain, Chain (found (s.lookup d)) a chain ∧
      (i.methods.map (·.name)).Nodup ∧
      (∀ name, name ∈ i.methods.map (·.name) ↔ ∃ b ∈ chain, ∃ m ∈ b.methods, m.name = name) ∧
      (∀ name, i.method? name =
        (chain.find? fun b => b.methods.any fun m => m.name == name).bind fun b =>
          b.methods.find? fun m => m.name == name) ∧
      i.methods = ((chain.flatMap (·.methods)).zipIdx.filter fun x =>
        x.1.name ∉ ((chain.flatMap (·.methods)).take x.2).map (·.name)).map (·.1) := by
  obtain ⟨chain, hchain, rfl⟩ := exists_chain h
  refine ⟨chain, hchain, ?_⟩
  simp only [Instance.method?, Instance.methodsOf_eq]
  refine ⟨names_nearest_nodup _, fun name => ?_, fun name => ?_, nearest_eq _⟩
  · rw [mem_names_nearest, List.map_flatMap, List.mem_flatMap]
    simp only [List.mem_map]
  · rw [find?_nearest, find?_methods]

def answer (name item : String) : Method := { name, item, trigger := .changed }

/-- A base declares rules that its heir declares again, one of them twice. -/
def ancestor : Artifact :=
  { identifier := "l.Base", kind := .rule, isAbstract := true, constructible := true
    methods := [answer "shared" "Door", answer "kept" "Door", answer "kept" "Lamp"] }

def descendant : Artifact :=
  { identifier := "l.Child", kind := .rule, constructible := true, extends? := some "l.Base"
    methods := [answer "own" "Lamp", answer "shared" "Lamp"] }

def family : Session := { entries := [.pack ⟨"l.pack"⟩ ⟨"", [("l.Base", ancestor)]⟩] }

/-- The heir has one rule of each name: its own ones and the first of the twice declared. -/
theorem methods_of_create_family :
    (family.create { entries := [] } descendant).1 = .ok ⟨descendant,
      [answer "own" "Lamp", answer "shared" "Lamp", answer "kept" "Door"]⟩ ∧
    ∃ chain, Chain (found (family.lookup { entries := [] })) descendant chain ∧
      ∃ b ∈ chain, ∃ m ∈ b.methods, m.name = "kept" := by
  have h : (family.create { entries := [] } descendant).1 = .ok ⟨descendant,
      [answer "own" "Lamp", answer "shared" "Lamp", answer "kept" "Door"]⟩ := by decide
  obtain ⟨chain, hchain, -, hnames, -⟩ := methods_of_create h
  exact ⟨h, chain, hchain, (hnames "kept").mp (by decide)⟩

end ClassPath.Session

end LiveRules
