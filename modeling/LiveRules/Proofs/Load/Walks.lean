import LiveRules.ClassPath.Session
import LiveRules.Proofs.Files.Tree
import LiveRules.Proofs.Load.Chains
import Mathlib.Data.Set.Card

/-!
Walks up the bases of a unit. A walk passes units of different identifiers until it ends: at a unit
without a base, at an identifier that it has met before, or at a base that is not found. A class
path in use tells these ends apart, and it asks for at most as many bases as its units and the unit
itself declare identifiers.
-/

namespace LiveRules

/-- What is found, whatever the reason why the rest is not. -/
def found (resolve : String → Except LoadError Artifact) (name : String) : Option Artifact :=
  (resolve name).toOption

theorem found_eq_some_iff {resolve : String → Except LoadError Artifact} {name : String}
    {a : Artifact} : found resolve name = some a ↔ resolve name = .ok a := by
  rw [found]
  cases resolve name <;> simp [Except.toOption]

theorem found_eq_none_iff {resolve : String → Except LoadError Artifact} {name : String} :
    found resolve name = none ↔ ∃ e, resolve name = .error e := by
  rw [found]
  cases resolve name <;> simp [Except.toOption]

/-- The bases of a unit lead up to another one, past the units on the way. -/
inductive Leads (find : String → Option Artifact) : Artifact → List Artifact → Artifact → Prop where
  | here {a : Artifact} : Leads find a [] a
  | up {a b c : Artifact} {base : String} {passed : List Artifact} (h : a.extends? = some base)
      (hb : find base = some b) (hc : Leads find b passed c) : Leads find a (a :: passed) c

/-- How a walk that has passed some units ends at a further one: what it answers, and which base it
still asks for. -/
inductive Ends (find : String → Option Artifact) (passed : List Artifact) (c : Artifact) :
    Except LoadError (List Artifact) → List String → Prop where
  | last (hnew : c.identifier ∉ passed.map (·.identifier)) (h : c.extends? = none) :
      Ends find passed c (.ok (passed ++ [c])) []
  | cycle (hmet : c.identifier ∈ passed.map (·.identifier)) :
      Ends find passed c (.error (.cycle c.identifier)) []
  | lost {base : String} (hnew : c.identifier ∉ passed.map (·.identifier))
      (h : c.extends? = some base) (hlost : find base = none) :
      Ends find passed c (.error (.unresolvedBase c.identifier base)) [base]

/-- The identifiers that units declare, whatever the names under which they are found. -/
def declaredBy (find : String → Option Artifact) : Set String :=
  {identifier | ∃ name b, find name = some b ∧ b.identifier = identifier}

section Walk

variable {find : String → Option Artifact} {a b c : Artifact} {passed : List Artifact}
variable {base : String} {r : Except LoadError (List Artifact)} {names : List String}

theorem Leads.snoc (h : Leads find a passed c) (hbase : c.extends? = some base)
    (hb : find base = some b) : Leads find a (passed ++ [c]) b := by
  induction h with
  | here => exact .up hbase hb .here
  | up h hb' _ ih => exact .up h hb' (ih hbase)

/-- A walk depends on the bases that it asks for only. -/
theorem Leads.congr {find' : String → Option Artifact} (h : Leads find a passed c)
    (hsame : ∀ passed c base, Leads find a passed c → c.extends? = some base →
      find' base = find base) : Leads find' a passed c := by
  induction h with
  | here => exact .here
  | up hbase hb _ ih =>
    refine .up hbase ?_ (ih fun passed c base hc => hsame _ c base (.up hbase hb hc))
    rw [hsame [] _ _ .here hbase, hb]

theorem Ends.congr {find' : String → Option Artifact} (h : Ends find passed c r names)
    (hsame : ∀ base, c.extends? = some base → find' base = find base) :
    Ends find' passed c r names := by
  cases h with
  | last hnew hnone => exact .last hnew hnone
  | cycle hmet => exact .cycle hmet
  | lost hnew hbase hlost => exact .lost hnew hbase (by rw [hsame _ hbase, hlost])

/-- A walk meets the unit that it starts from and units that are found. -/
theorem Leads.met (h : Leads find a passed c) (hb : b ∈ passed ++ [c]) :
    b = a ∨ ∃ name, find name = some b := by
  induction h with
  | here => exact .inl (by simpa using hb)
  | up _ hnext _ ih =>
    rcases List.mem_cons.mp hb with rfl | hb
    · exact .inl rfl
    · rcases ih hb with rfl | hfound
      · exact .inr ⟨_, hnext⟩
      · exact .inr hfound

/-- Every unit on the way extends another one. -/
theorem Leads.length_bases (h : Leads find a passed c) :
    (passed.filterMap (·.extends?)).length = passed.length := by
  induction h with
  | here => rfl
  | up h _ _ ih => simp [h, ih]

/-- A walk ends, or it goes on for as many steps as are wanted. -/
theorem exists_leads (find : String → Option Artifact) (a : Artifact) (steps : Nat) :
    ∃ passed c, Leads find a passed c ∧ (passed.map (·.identifier)).Nodup ∧
      (passed.length = steps ∨ ∃ r names, Ends find passed c r names) := by
  induction steps with
  | zero => exact ⟨[], a, .here, List.nodup_nil, .inl rfl⟩
  | succ steps ih =>
    obtain ⟨passed, c, hleads, hdistinct, hlength | hends⟩ := ih
    swap
    · exact ⟨passed, c, hleads, hdistinct, .inr hends⟩
    by_cases hmet : c.identifier ∈ passed.map (·.identifier)
    · exact ⟨passed, c, hleads, hdistinct, .inr ⟨_, _, .cycle hmet⟩⟩
    cases hbase : c.extends? with
    | none => exact ⟨passed, c, hleads, hdistinct, .inr ⟨_, _, .last hmet hbase⟩⟩
    | some base =>
      cases hb : find base with
      | none => exact ⟨passed, c, hleads, hdistinct, .inr ⟨_, _, .lost hmet hbase hb⟩⟩
      | some b =>
        -- the unit is new and its base is found: the walk takes one more step
        refine ⟨passed ++ [c], b, hleads.snoc hbase hb, ?_, .inl (by simp [hlength])⟩
        rw [List.map_append, List.nodup_append]
        refine ⟨hdistinct, List.nodup_singleton _, ?_⟩
        rintro x hx y hy rfl
        rw [List.map_singleton, List.mem_singleton] at hy
        exact hmet (hy ▸ hx)

/-- Units of different identifiers on a walk are not more than the identifiers that are declared. -/
theorem Leads.length_le (h : Leads find a passed c) {units : List Artifact}
    (hunits : units ⊆ passed ++ [c]) (hdistinct : (units.map (·.identifier)).Nodup)
    (hfinite : (declaredBy find).Finite) :
    units.length ≤ (insert a.identifier (declaredBy find)).ncard := by
  have hsub : {x | x ∈ units.map (·.identifier)} ⊆ insert a.identifier (declaredBy find) := by
    intro identifier hmem
    obtain ⟨b, hb, rfl⟩ := List.mem_map.mp hmem
    rcases h.met (hunits hb) with rfl | ⟨name, hname⟩
    · exact Set.mem_insert _ _
    · exact Set.mem_insert_of_mem _ ⟨name, b, hname, rfl⟩
  have hcard : {x | x ∈ units.map (·.identifier)}.ncard = units.length := by
    rw [← List.coe_toFinset, Set.ncard_coe_finset, List.toFinset_card_of_nodup hdistinct,
      List.length_map]
  rw [← hcard]
  exact Set.ncard_le_ncard hsub (hfinite.insert _)

end Walk

/-! ### Look-ups that remember -/

namespace Instance

/-- The look-ups in a state, and in all states that they lead to, give the answers of a function. -/
structure Steady {σ : Type} (ask : String → σ → Except LoadError Artifact × σ)
    (resolve : String → Except LoadError Artifact) (keeps : σ → Prop) : Prop where
  answer : ∀ name s, keeps s → (ask name s).1 = resolve name
  keep : ∀ name s, keeps s → keeps (ask name s).2

/-- The state after some look-ups. -/
def after {σ : Type} (ask : String → σ → Except LoadError Artifact × σ) (names : List String)
    (s : σ) : σ :=
  names.foldl (fun s name => (ask name s).2) s

variable {σ : Type} {ask : String → σ → Except LoadError Artifact × σ} {keeps : σ → Prop} {s : σ}
variable {resolve : String → Except LoadError Artifact} {steps : Nat} {seen : List String}
variable {a c : Artifact} {passed : List Artifact} {r : Except LoadError (List Artifact)}
variable {names : List String}

theorem after_append (xs ys : List String) :
    after ask (xs ++ ys) s = after ask ys (after ask xs s) := List.foldl_append

theorem Steady.after (h : Steady ask resolve keeps) (hs : keeps s) (names : List String) :
    keeps (after ask names s) := by
  induction names generalizing s with
  | nil => exact hs
  | cons name rest ih => exact ih (h.keep name s hs)

/-- A look-up that remembers gives the chain that one without memory gives. -/
theorem Steady.climb_fst (h : Steady ask resolve keeps) (hs : keeps s) :
    (climb ask steps seen a s).1 = chain resolve steps seen a := by
  -- the state changes from step to step, and `keeps` is all that is known of it
  induction steps generalizing seen a s with
  | zero => rfl
  | succ steps ih =>
    rw [chain_succ, climb]
    split
    · rfl
    cases a.extends? with
    | none => rfl
    | some base =>
      have hanswer := h.answer base s hs
      have hkeep := h.keep base s hs
      dsimp only
      rw [← hanswer]
      rcases hask : ask base s with ⟨answer, s'⟩
      rw [hask] at hkeep
      cases answer with
      | error e => rfl
      | ok next =>
        dsimp only
        rw [← ih hkeep]
        rcases climb ask steps (a.identifier :: seen) next s' with ⟨r, s''⟩
        cases r <;> rfl

/-- A walk that has passed some units goes on from where it is. -/
theorem Steady.climb_past (h : Steady ask resolve keeps) (hs : keeps s)
    (hleads : Leads (found resolve) a passed c) (hdistinct : (passed.map (·.identifier)).Nodup)
    (hnew : ∀ b ∈ passed, b.identifier ∉ seen) :
    climb ask (passed.length + steps) seen a s =
      let (r, s) := climb ask steps ((passed.map (·.identifier)).reverse ++ seen) c
        (Instance.after ask (passed.filterMap (·.extends?)) s)
      (r.map (passed ++ ·), s) := by
  -- each unit on the way takes one step and one look-up, and none is met again
  induction hleads generalizing seen s with
  | here =>
    rw [List.length_nil, Nat.zero_add]
    rcases hclimb : climb ask steps seen _ s with ⟨r, s'⟩
    simp only [List.map_nil, List.reverse_nil, List.nil_append, List.filterMap_nil,
      Instance.after, List.foldl_nil, hclimb]
    cases r <;> rfl
  | @up a b c base passed hbase hb _ ih =>
    rw [List.map_cons, List.nodup_cons] at hdistinct
    have hseen : seen.contains a.identifier = false := by
      simpa using hnew a List.mem_cons_self
    have hrest : ∀ x ∈ passed, x.identifier ∉ a.identifier :: seen := by
      intro x hx hmem
      rcases List.mem_cons.mp hmem with heq | hmem
      · exact hdistinct.1 (heq ▸ List.mem_map_of_mem hx)
      · exact hnew x (List.mem_cons_of_mem a hx) hmem
    have hanswer : (ask base s).1 = .ok b := by
      rw [h.answer base s hs, found_eq_some_iff.mp hb]
    have hstep := ih (h.keep base s hs) hdistinct.2 hrest
    have hask : ask base s = (.ok b, (ask base s).2) := by rw [← hanswer]
    rw [List.length_cons, Nat.add_right_comm, climb, hseen, if_neg Bool.false_ne_true, hbase]
    dsimp only
    rw [hask]
    dsimp only
    rw [hstep]
    simp only [List.map_cons, List.reverse_cons, List.append_assoc, List.singleton_append,
      List.filterMap_cons, hbase, Instance.after, List.foldl_cons]
    generalize climb ask steps _ _ _ = x
    rcases x with ⟨r, s'⟩
    cases r <;> rfl

/-- A walk answers according to its end, having asked for the bases on the way. -/
theorem Steady.climb_of_ends (h : Steady ask resolve keeps) (hs : keeps s)
    (hleads : Leads (found resolve) a passed c) (hdistinct : (passed.map (·.identifier)).Nodup)
    (hends : Ends (found resolve) passed c r names) (hsteps : passed.length < steps) :
    climb ask steps [] a s =
      (r, Instance.after ask (passed.filterMap (·.extends?) ++ names) s) := by
  -- one step is left for the unit at which the walk ends
  obtain ⟨n, rfl⟩ : ∃ n, steps = passed.length + (n + 1) := ⟨steps - passed.length - 1, by omega⟩
  have hkeeps := h.after hs (passed.filterMap (·.extends?))
  rw [h.climb_past hs hleads hdistinct (by simp), climb, List.append_nil]
  cases hends with
  | last hnew hbase =>
    rw [if_neg (by simpa using hnew), hbase, List.append_nil]
    rfl
  | cycle hmet =>
    rw [if_pos (by simpa using hmet), List.append_nil]
    rfl
  | @lost base hnew hbase hlost =>
    obtain ⟨e, he⟩ := found_eq_none_iff.mp hlost
    have hanswer := h.answer base _ hkeeps
    rw [he] at hanswer
    rw [if_neg (by simpa using hnew), hbase, after_append]
    dsimp only
    generalize Instance.after ask (passed.filterMap (·.extends?)) s = s' at hanswer ⊢
    rcases hask : ask base s' with ⟨answer, s''⟩
    rw [hask] at hanswer
    obtain rfl : answer = .error e := hanswer
    simp only [Instance.after, List.foldl_cons, List.foldl_nil, hask]
    rfl

end Instance

end LiveRules
