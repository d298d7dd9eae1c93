import LiveRules.Config.Document
import LiveRules.Proofs.Files.Endings

/-!
When two configured folders are one. A configuration is checked as it is written, before its paths
are resolved, so paths that are written differently may still resolve to the same path. There are
three ways: a `.` stands in front of one of two relative paths, a `~` stands for a home that the
other path spells out, or an absolute path leads into the working directory that a relative one
starts from.
-/

namespace LiveRules

namespace Path

variable {p q base : Path} {home : String}

/-! ### Paths without idle components -/

/-- Two paths are the same component by component, the current directory being left out. -/
def SamePlaces (p q : Path) : Prop :=
  (p.components.filter fun c => c ≠ .here) = q.components.filter fun c => c ≠ .here

instance : Decidable (SamePlaces p q) :=
  inferInstanceAs (Decidable
    ((p.components.filter fun c => c ≠ .here) = q.components.filter fun c => c ≠ .here))

theorem component_ne_here (piece : List Char) : component piece ≠ .here := by
  unfold component
  split <;> simp

theorem component_ne_root (piece : List Char) : component piece ≠ .root := by
  unfold component
  split <;> simp

theorem component_injective : Function.Injective component := by
  intro piece piece' h
  unfold component at h
  split_ifs at h with hup hup'
  · rw [hup, hup']
  · exact String.ofList_injective (Component.name.inj h)

/-- The components of an absolute path are the root and what its pieces say. -/
theorem components_of_isAbsolute (h : p.isAbsolute = true) :
    p.components = .root :: p.steps.map component := by
  obtain ⟨rest, -, hpieces⟩ := isAbsolute_iff.mp h
  rw [components_eq hpieces, firstComponents, if_pos h, steps, hpieces,
    List.filter_cons_of_neg (by decide), List.singleton_append]

/-- The components of a relative path are what its pieces say, perhaps with a `.` in front. -/
theorem components_of_isRelative (h : p.isAbsolute = false) :
    p.components = p.steps.map component ∨ p.components = .here :: p.steps.map component := by
  obtain ⟨first, rest, hpieces⟩ := List.exists_cons_of_ne_nil (pieces_ne_nil (p := p))
  rw [components_eq hpieces, firstComponents, if_neg (by simp [h]), steps, hpieces]
  by_cases hempty : first = []
  · subst hempty
    exact .inl rfl
  · rw [if_neg (by simpa using hempty)]
    by_cases hhere : first = ['.']
    · subst hhere
      exact .inr rfl
    · rw [if_neg hhere, List.filter_cons_of_pos (by simp [isIdle, hempty, hhere])]
      exact .inl rfl

theorem filter_map_component (pieces : List (List Char)) :
    ((pieces.map component).filter fun c => c ≠ .here) = pieces.map component := by
  rw [List.filter_eq_self]
  intro c hc
  obtain ⟨piece, -, rfl⟩ := List.mem_map.mp hc
  exact decide_eq_true (component_ne_here piece)

theorem filter_components (p : Path) : (p.components.filter fun c => c ≠ .here) =
    (if p.isAbsolute then [.root] else []) ++ p.steps.map component := by
  cases habs : p.isAbsolute with
  | true =>
    rw [components_of_isAbsolute habs, List.filter_cons_of_pos (by decide), filter_map_component]
    rfl
  | false =>
    rcases components_of_isRelative habs with h | h
    · rw [h, filter_map_component]
      rfl
    · rw [h, List.filter_cons_of_neg (by decide), filter_map_component]
      rfl

/-- What is left of the components tells whether a path is absolute. -/
theorem root_mem_filter_components :
    .root ∈ (p.components.filter fun c => c ≠ .here) ↔ p.isAbsolute = true := by
  have hnot : .root ∉ p.steps.map component := by
    rw [List.mem_map]
    rintro ⟨piece, -, hpiece⟩
    exact component_ne_root piece hpiece
  rw [filter_components, List.mem_append, or_iff_left hnot]
  cases p.isAbsolute <;> simp

theorem samePlaces_iff : SamePlaces p q ↔ p.isAbsolute = q.isAbsolute ∧ p.steps = q.steps := by
  constructor
  · intro h
    have habs : p.isAbsolute = q.isAbsolute := by
      rw [Bool.eq_iff_iff, ← root_mem_filter_components, ← root_mem_filter_components, h]
    rw [SamePlaces, filter_components, filter_components, habs] at h
    exact ⟨habs, component_injective.list_map (List.append_cancel_left h)⟩
  · rintro ⟨habs, hsteps⟩
    rw [SamePlaces, filter_components, filter_components, habs, hsteps]

/-! ### Resolved paths -/

theorem steps_join (h : q.isAbsolute = false) : (p.join q).steps = p.steps ++ q.steps := by
  obtain ⟨idles, hpieces, hidle⟩ := pieces_eq_openPieces (p := p)
  rw [steps, pieces_join_relative h, steps, hpieces, List.filter_append, List.filter_append,
    filter_idle hidle, List.append_nil, steps]

theorem resolve_of_isAbsolute (h : (p.expandHome home).isAbsolute = true) :
    resolve home p base = p.expandHome home := if_pos h

theorem resolve_of_isRelative (h : (p.expandHome home).isAbsolute = false) :
    resolve home p base = base.join (p.expandHome home) := if_neg (by simp [h])

/-- Paths that are both absolute or both relative, a home being put in, resolve to one path exactly
if they say the same. -/
theorem samePlaces_resolve_of_eq
    (h : (p.expandHome home).isAbsolute = (q.expandHome home).isAbsolute) :
    SamePlaces (resolve home p base) (resolve home q base) ↔
      (p.expandHome home).steps = (q.expandHome home).steps := by
  rw [samePlaces_iff]
  cases hq : (q.expandHome home).isAbsolute with
  | true =>
    rw [resolve_of_isAbsolute (h.trans hq), resolve_of_isAbsolute hq]
    exact and_iff_right h
  | false =>
    rw [resolve_of_isRelative (h.trans hq), resolve_of_isRelative hq, steps_join (h.trans hq),
      steps_join hq, isAbsolute_join_relative (h.trans hq), isAbsolute_join_relative hq]
    exact (and_iff_right rfl).trans (List.append_right_inj base.steps)

/-! ### Paths that are written differently -/

/-- Two paths, seen from a base, are two spellings of one path. -/
inductive Meet (home : String) (base p q : Path) : Prop
  /-- One of them has a `.` in front. -/
  | pointed (hp : p.expandHome home = p) (hq : q.expandHome home = q)
      (h : p.components = .here :: q.components ∨ q.components = .here :: p.components)
  /-- A home in place of a `~` makes one of the other. -/
  | home (hne : p.expandHome home ≠ p ∨ q.expandHome home ≠ q)
      (h : SamePlaces (p.expandHome home) (q.expandHome home))
  /-- The first one leads from the root to where the second one leads from the base. -/
  | first (hp : (p.expandHome home).isAbsolute = true)
      (hq : (q.expandHome home).isAbsolute = false)
      (h : SamePlaces (p.expandHome home) (base.join (q.expandHome home)))
  /-- The second one leads from the root to where the first one leads from the base. -/
  | second (hp : (p.expandHome home).isAbsolute = false)
      (hq : (q.expandHome home).isAbsolute = true)
      (h : SamePlaces (base.join (p.expandHome home)) (q.expandHome home))

/-- Components that differ and say the same differ by a `.` in front. -/
theorem pointed_of_samePlaces (h : SamePlaces p q) (hne : p.components ≠ q.components) :
    p.components = .here :: q.components ∨ q.components = .here :: p.components := by
  obtain ⟨habs, hsteps⟩ := samePlaces_iff.mp h
  cases hq : q.isAbsolute with
  | true =>
    rw [components_of_isAbsolute (habs.trans hq), components_of_isAbsolute hq, hsteps] at hne
    exact absurd rfl hne
  | false =>
    have hp := components_of_isRelative (habs.trans hq)
    rw [hsteps] at hp
    rcases hp with hp | hp <;> rcases components_of_isRelative hq with hq | hq <;>
      rw [hp, hq] at hne ⊢
    · exact absurd rfl hne
    · exact .inr rfl
    · exact .inl rfl
    · exact absurd rfl hne

theorem samePlaces_of_pointed
    (h : p.components = .here :: q.components ∨ q.components = .here :: p.components) :
    SamePlaces p q := by
  unfold SamePlaces
  rcases h with h | h
  · rw [h, List.filter_cons_of_neg (by decide)]
  · rw [h, List.filter_cons_of_neg (by decide)]

/-- Paths with different components resolve to one path in these ways only. -/
theorem samePlaces_resolve_iff (hne : p.components ≠ q.components) :
    SamePlaces (resolve home p base) (resolve home q base) ↔ Meet home base p q := by
  constructor
  · intro h
    by_cases heq : (p.expandHome home).isAbsolute = (q.expandHome home).isAbsolute
    · have hsame : SamePlaces (p.expandHome home) (q.expandHome home) :=
        samePlaces_iff.mpr ⟨heq, (samePlaces_resolve_of_eq heq).mp h⟩
      by_cases hplain : p.expandHome home = p ∧ q.expandHome home = q
      · rw [hplain.1, hplain.2] at hsame
        exact .pointed hplain.1 hplain.2 (pointed_of_samePlaces hsame hne)
      · exact .home (not_and_or.mp hplain) hsame
    · cases hp : (p.expandHome home).isAbsolute <;>
        cases hq : (q.expandHome home).isAbsolute
      · exact absurd (hp.trans hq.symm) heq
      · rw [resolve_of_isRelative hp, resolve_of_isAbsolute hq] at h
        exact .second hp hq h
      · rw [resolve_of_isAbsolute hp, resolve_of_isRelative hq] at h
        exact .first hp hq h
      · exact absurd (hp.trans hq.symm) heq
  · intro h
    cases h with
    | pointed hp hq h =>
      have hsame := samePlaces_iff.mp (samePlaces_of_pointed h)
      rw [samePlaces_resolve_of_eq (by rw [hp, hq]; exact hsame.1), hp, hq]
      exact hsame.2
    | home hne h =>
      have hsame := samePlaces_iff.mp h
      exact (samePlaces_resolve_of_eq hsame.1).mpr hsame.2
    | first hp hq h => rwa [resolve_of_isAbsolute hp, resolve_of_isRelative hq]
    | second hp hq h => rwa [resolve_of_isRelative hp, resolve_of_isAbsolute hq]

/-- Two paths are written in one way: no `~` stands in front, and both are absolute, or both are
relative with or without a `.` in front. -/
structure WrittenAlike (home : String) (p q : Path) : Prop where
  first : p.expandHome home = p
  second : q.expandHome home = q
  isAbsolute : p.isAbsolute = q.isAbsolute
  here : p.components.head? = some .here ↔ q.components.head? = some .here

/-- A `.` is left out behind the first component. -/
theorem here_not_mem_tail {cs : List Component} (h : p.components = .here :: cs) : .here ∉ cs := by
  have hnot : .here ∉ p.steps.map component := by
    rw [List.mem_map]
    rintro ⟨piece, -, hpiece⟩
    exact component_ne_here piece hpiece
  cases hp : p.isAbsolute with
  | true =>
    rw [components_of_isAbsolute hp] at h
    cases h
  | false =>
    rcases components_of_isRelative hp with hsaid | hsaid <;> rw [hsaid] at h
    · rw [h] at hnot
      exact absurd List.mem_cons_self hnot
    · rwa [← (List.cons.inj h).2]

theorem WrittenAlike.not_meet (h : WrittenAlike home p q) : ¬Meet home base p q := by
  intro hmeet
  cases hmeet with
  | pointed _ _ hpoint =>
    rcases hpoint with hpoint | hpoint
    · have hhead := h.here.mp (by rw [hpoint]; rfl)
      exact here_not_mem_tail hpoint (List.mem_of_head? hhead)
    · have hhead := h.here.mpr (by rw [hpoint]; rfl)
      exact here_not_mem_tail hpoint (List.mem_of_head? hhead)
  | home hne _ => exact hne.elim (fun hno => hno h.first) fun hno => hno h.second
  | first hp hq _ =>
    rw [h.first, h.isAbsolute] at hp
    rw [h.second, hp] at hq
    cases hq
  | second hp hq _ =>
    rw [h.first, h.isAbsolute] at hp
    rw [h.second, hp] at hq
    cases hq

end Path

namespace Config

open LiveRules.Path

variable {d : Disk} {home : String} {folder name : Path} {workingDir : Option Path} {c : Config}

/-- A configuration without problems has different paths for rules and for their units. -/
theorem components_ne_of_problems (h : c.problems = []) :
    c.folders.rules.components ≠ c.folders.ruleClasses.components := by
  intro heq
  have hsame : c.folders.rules.same c.folders.ruleClasses = true := Path.same_iff.mpr heq
  simp [problems, hsame] at h

/-- A configuration is loaded from one that is found, after a check. -/
theorem exists_of_load (h : (load d home folder name workingDir).result = .ok c) :
    ∃ r : Config, (found d folder name).result = .ok r ∧
      r.folders.rules.components ≠ r.folders.ruleClasses.components ∧
      c.folders.rules = resolve home r.folders.rules c.folders.workingDir ∧
      c.folders.ruleClasses = resolve home r.folders.ruleClasses c.folders.workingDir := by
  cases hfound : (found d folder name).result with
  | error e =>
    simp only [load, hfound] at h
    cases h
  | ok r =>
    simp only [load, hfound, Except.bind] at h
    split at h
    · rename_i hproblems
      obtain rfl := Except.ok.inj h
      exact ⟨r, rfl, components_ne_of_problems hproblems, rfl, rfl⟩
    · cases h

/-- The folders of the rules and of their units are one in a loaded configuration exactly if they
were two spellings of one path, seen from the working directory. They are two folders if they were
written in one way. -/
theorem load_joins_folders_iff (h : (load d home folder name workingDir).result = .ok c) :
    ∃ r : Config, (found d folder name).result = .ok r ∧
      (SamePlaces c.folders.rules c.folders.ruleClasses ↔
        Meet home c.folders.workingDir r.folders.rules r.folders.ruleClasses) ∧
      (WrittenAlike home r.folders.rules r.folders.ruleClasses →
        ¬SamePlaces c.folders.rules c.folders.ruleClasses) := by
  obtain ⟨r, hr, hne, hrules, hclasses⟩ := exists_of_load h
  have hiff : SamePlaces c.folders.rules c.folders.ruleClasses ↔
      Meet home c.folders.workingDir r.folders.rules r.folders.ruleClasses := by
    rw [hrules, hclasses]
    exact samePlaces_resolve_iff hne
  exact ⟨r, hr, hiff, fun halike hsame => halike.not_meet (hiff.mp hsame)⟩

/-- A disk with a configuration file that names the folders of the rules and of their units. -/
def foldersDisk (rules ruleClasses : String) : Disk where
  entries := [(["hotrules.toml"], .file (Text.encode ("[paths]\nrules = \"" ++ rules ++
    "\"\nrule_classes = \"" ++ ruleClasses ++ "\"\n")) false)]

/-- The configuration on such a disk. -/
def loaded (rules ruleClasses : String) : Loaded :=
  load (foldersDisk rules ruleClasses) "/home/oracle" ⟨"/"⟩ ⟨fileName⟩ none

theorem exists_loaded {x : Loaded} (h : x.result.toOption.isSome = true) :
    ∃ c, x.result = .ok c := by
  cases hx : x.result with
  | ok c => exact ⟨c, rfl⟩
  | error e =>
    rw [hx] at h
    cases h

/-- Two relative paths without a `.` in front stay two folders. -/
theorem load_joins_folders_iff_plain : ∃ c r, (loaded "a" "b").result = .ok c ∧
    (found (foldersDisk "a" "b") ⟨"/"⟩ ⟨fileName⟩).result = .ok r ∧
    (SamePlaces c.folders.rules c.folders.ruleClasses ↔
      Meet "/home/oracle" c.folders.workingDir r.folders.rules r.folders.ruleClasses) ∧
    ¬SamePlaces c.folders.rules c.folders.ruleClasses := by
  obtain ⟨c, hc⟩ := exists_loaded (x := loaded "a" "b") (by decide +kernel)
  obtain ⟨r, hr, hiff, hapart⟩ := load_joins_folders_iff hc
  have hraw : (found (foldersDisk "a" "b") ⟨"/"⟩ ⟨fileName⟩).result.toOption.map
      (fun r => (r.folders.rules, r.folders.ruleClasses)) = some (⟨"a"⟩, ⟨"b"⟩) := by
    decide +kernel
  rw [hr] at hraw
  obtain ⟨hrules, hclasses⟩ := Prod.mk.inj (Option.some.inj hraw)
  refine ⟨c, r, hc, hr, hiff, hapart ?_⟩
  rw [hrules, hclasses]
  exact ⟨by decide, by decide, by decide, by decide⟩

/-- The same folder is named twice, once with a `.` in front. -/
theorem load_joins_pointed : ∃ c, (loaded "a" "./a").result = .ok c ∧
    SamePlaces c.folders.rules c.folders.ruleClasses := by
  obtain ⟨c, hc⟩ := exists_loaded (x := loaded "a" "./a") (by decide +kernel)
  have hsame : (loaded "a" "./a").result.toOption.map (fun c =>
      decide (SamePlaces c.folders.rules c.folders.ruleClasses)) = some true := by
    decide +kernel
  rw [hc] at hsame
  exact ⟨c, hc, of_decide_eq_true (Option.some.inj hsame)⟩

end Config

end LiveRules
