import LiveRules.Proofs.Watch.Bursts

/-!
Pending changes over time. A table is used by calls, some of which bring a change and some of which
ask for a burst. A call that asks is given one just when changes are waiting and the window has
passed since the last of them, and the burst is what the waiting changes have come to.
-/

namespace LiveRules.Pending

/-- What a table of pending changes may be called for. -/
inductive Call where
  | add (x : Change)
  | take
  deriving DecidableEq

/-- What is seen of a table: changes that came, and answers to who asked for a burst. -/
inductive Event where
  | added (time : Time) (x : Change)
  | asked (time : Time) (answer : Option (List Change))
  deriving DecidableEq

def perform (p : Pending) : Time × Call → Event × Pending
  | (now, .add x) => (.added now x, (p.add now x).1)
  | (now, .take) => (.asked now (p.take? now).1, (p.take? now).2)

/-- One call after the other, and what is seen of them. -/
def run (p : Pending) : List (Time × Call) → List Event × Pending
  | [] => ([], p)
  | call :: rest =>
    let (event, p) := p.perform call
    let (events, p) := run p rest
    (event :: events, p)

theorem run_concat (p : Pending) (calls : List (Time × Call)) (call : Time × Call) :
    p.run (calls ++ [call]) = ((p.run calls).1 ++ [((p.run calls).2.perform call).1],
      ((p.run calls).2.perform call).2) := by
  induction calls generalizing p with
  | nil => rfl
  | cons first rest ih => simp only [List.cons_append, run, ih]

namespace Event

/-- The changes that wait after an event, from those that waited before it. -/
def wait (waiting : List (Time × Change)) : Event → List (Time × Change)
  | .added time x => waiting ++ [(time, x)]
  | .asked _ none => waiting
  | .asked _ (some _) => []

def change? : Event → Option Change
  | .added _ x => some x
  | .asked .. => none

def burst? : Event → Option (List Change)
  | .added .. => none
  | .asked _ answer => answer

end Event

/-- The changes that came since the last burst, with their times. -/
def waiting (events : List Event) : List (Time × Change) := events.foldl Event.wait []

theorem waiting_concat (events : List Event) (event : Event) :
    waiting (events ++ [event]) = event.wait (waiting events) := by
  rw [waiting, List.foldl_append]
  rfl

/-- When the last of the waiting changes came. -/
def lastTime? (events : List Event) : Option Time := (waiting events).getLast?.map Prod.fst

/-- All changes but those that wait have been told of, each in one burst. -/
def Tells (events : List Event) : Prop :=
  ∃ rounds : List (List Change × List Change),
    rounds.map Prod.snd = events.filterMap Event.burst? ∧
    (∀ round ∈ rounds, IsBurst round.1 round.2) ∧
    rounds.flatMap Prod.fst ++ (waiting events).map Prod.snd = events.filterMap Event.change?

/-- A table that holds what the waiting changes have come to, and when the last of them came. -/
structure Awaits (window : Nat) (events : List Event) (p : Pending) : Prop where
  window : p.window = window
  gathers : Gathers ((waiting events).map Prod.snd) p.changes
  last : p.last = lastTime? events

variable {window : Nat} {events : List Event} {p : Pending}

theorem awaits_new (window : Nat) : Awaits window [] { window } := ⟨rfl, .nil, rfl⟩

theorem Awaits.isEmpty_iff (h : Awaits window events p) :
    p.isEmpty = true ↔ waiting events = [] := by
  rw [isEmpty, List.isEmpty_iff, h.gathers.isEmpty_iff, List.map_eq_nil_iff]

theorem lastTime?_of_waiting (h : waiting events = []) : lastTime? events = none := by
  rw [lastTime?, h]
  rfl

theorem Awaits.deadline?_eq (h : Awaits window events p) :
    p.deadline? = (lastTime? events).map (· + window) := by
  rw [deadline?, h.last, h.window]
  split
  · rename_i hempty
    rw [lastTime?_of_waiting (h.isEmpty_iff.mp hempty)]
    rfl
  · rfl

/-- Whether changes are waiting, and have been for as long as the window since the last of them. -/
def IsDue (window : Nat) (now : Time) (events : List Event) : Prop :=
  ∃ last, lastTime? events = some last ∧ last + window ≤ now

/-- Who asks is given the sorted table when it is due, which leaves nothing behind; otherwise
nothing is given and nothing changes. -/
theorem Awaits.take?_cases (h : Awaits window events p) (now : Time) :
    IsDue window now events ∧
      p.take? now = (some (sorted p.changes), { p with changes := [], last := none }) ∨
    ¬IsDue window now events ∧ p.take? now = (none, p) := by
  rw [take?, h.deadline?_eq]
  cases hlast : lastTime? events with
  | none =>
    refine .inr ⟨?_, rfl⟩
    rintro ⟨last, hsome, -⟩
    rw [hlast] at hsome
    cases hsome
  | some last =>
    rw [Option.map_some]
    by_cases hnow : now < last + window
    · refine .inr ⟨?_, by simp [hnow]⟩
      rintro ⟨time, hsome, hle⟩
      rw [hlast, Option.some.injEq] at hsome
      subst hsome
      exact absurd hle (Nat.not_le.mpr hnow)
    · exact .inl ⟨⟨last, hlast, Nat.not_lt.mp hnow⟩, by simp [hnow]⟩

theorem Awaits.take?_of_some (h : Awaits window events p) {now : Time} {burst : List Change}
    (hburst : (p.take? now).1 = some burst) :
    p.take? now = (some burst, { p with changes := [], last := none }) ∧
      burst = sorted p.changes := by
  rcases h.take?_cases now with ⟨-, htake⟩ | ⟨-, htake⟩ <;> rw [htake] at hburst
  · cases hburst
    exact ⟨htake, rfl⟩
  · cases hburst

/-- Every call keeps the table in line with what is seen. -/
theorem Awaits.perform (h : Awaits window events p) (call : Time × Call) :
    Awaits window (events ++ [(p.perform call).1]) (p.perform call).2 := by
  obtain ⟨now, x | -⟩ := call
  · refine ⟨h.window, ?_, ?_⟩
    · rw [waiting_concat, Pending.perform, Event.wait, List.map_append]
      exact h.gathers.enter x
    · rw [lastTime?, waiting_concat, Pending.perform, Event.wait, List.getLast?_concat]
      rfl
  · rw [Pending.perform]
    rcases h.take?_cases now with ⟨-, htake⟩ | ⟨-, htake⟩ <;> rw [htake]
    · refine ⟨h.window, ?_, ?_⟩
      · rw [waiting_concat]
        exact .nil
      · rw [lastTime?, waiting_concat]
        rfl
    · refine ⟨h.window, ?_, ?_⟩
      · rw [waiting_concat]
        exact h.gathers
      · rw [lastTime?, waiting_concat]
        exact h.last

theorem tells_nil : Tells [] := ⟨[], rfl, by simp, rfl⟩

/-- A burst tells of the changes that waited, any other call leaves them waiting. -/
theorem Tells.perform (h : Tells events) (hawaits : Awaits window events p) (call : Time × Call) :
    Tells (events ++ [(p.perform call).1]) := by
  obtain ⟨rounds, hbursts, hrounds, hadded⟩ := h
  obtain ⟨now, x | -⟩ := call
  · refine ⟨rounds, ?_, hrounds, ?_⟩
    · rw [hbursts, List.filterMap_append]
      exact (List.append_nil _).symm
    · rw [waiting_concat, Pending.perform, Event.wait, List.map_append, ← List.append_assoc, hadded,
        List.filterMap_append]
      rfl
  · rw [Pending.perform]
    rcases hawaits.take?_cases now with ⟨-, htake⟩ | ⟨-, htake⟩ <;> rw [htake]
    · refine ⟨rounds ++ [((waiting events).map Prod.snd, sorted p.changes)], ?_, ?_, ?_⟩
      · rw [List.map_append, hbursts, List.filterMap_append]
        rfl
      · intro round hround
        rcases List.mem_append.mp hround with hround | hround
        · exact hrounds round hround
        · rw [List.mem_singleton.mp hround]
          exact hawaits.gathers.isBurst_sorted
      · rw [waiting_concat, Event.wait, List.flatMap_append, List.filterMap_append, ← hadded]
        simp [Event.change?]
    · refine ⟨rounds, ?_, hrounds, ?_⟩
      · rw [hbursts, List.filterMap_append]
        exact (List.append_nil _).symm
      · rw [waiting_concat, Event.wait, hadded, List.filterMap_append]
        exact (List.append_nil _).symm

theorem awaits_run (window : Nat) (calls : List (Time × Call)) :
    Awaits window (run { window } calls).1 (run { window } calls).2 := by
  induction calls using List.reverseRecOn with
  | nil => exact awaits_new window
  | append_singleton calls call ih =>
    rw [run_concat]
    exact ih.perform call

theorem tells_run (window : Nat) (calls : List (Time × Call)) :
    Tells (run { window } calls).1 := by
  -- the table that a call meets is told by the events before it
  induction calls using List.reverseRecOn with
  | nil => exact tells_nil
  | append_singleton calls call ih =>
    rw [run_concat]
    exact ih.perform (awaits_run window calls) call

/-! ### Mixing changes of different paths -/

variable {events' : List Event} {p' : Pending} {now : Time}

/-- Tables that wait for the same changes path by path, the last of which came at one time, give
the same answer. -/
theorem Awaits.take?_congr (h : Awaits window events p) (h' : Awaits window events' p')
    (hagree : AgreeByPath ((waiting events).map Prod.snd) ((waiting events').map Prod.snd))
    (hlast : lastTime? events = lastTime? events') : (p.take? now).1 = (p'.take? now).1 := by
  have hdue : IsDue window now events ↔ IsDue window now events' := by
    rw [IsDue, IsDue, hlast]
  rcases h.take?_cases now with ⟨hyes, htake⟩ | ⟨hno, htake⟩ <;> rw [htake]
  · rcases h'.take?_cases now with ⟨-, htake'⟩ | ⟨hno', -⟩
    · rw [htake', h.gathers.isBurst_sorted.unique h'.gathers.isBurst_sorted hagree]
    · exact absurd (hdue.mp hyes) hno'
  · rcases h'.take?_cases now with ⟨hyes', -⟩ | ⟨-, htake'⟩
    · exact absurd (hdue.mpr hyes') hno
    · rw [htake']

/-- Changes that wait, the same path by path and at the same times. -/
def WaitAlike (events events' : List Event) : Prop :=
  ∀ p, ((waiting events).filter fun a => a.2.path.same p) =
    (waiting events').filter fun a => a.2.path.same p

theorem WaitAlike.symm (h : WaitAlike events events') : WaitAlike events' events :=
  fun p => (h p).symm

theorem WaitAlike.agree (h : WaitAlike events events') :
    AgreeByPath ((waiting events).map Prod.snd) ((waiting events').map Prod.snd) := by
  intro p
  rw [List.filter_map, List.filter_map]
  exact congrArg (List.map Prod.snd) (h p)

theorem WaitAlike.mem (h : WaitAlike events events') {a : Time × Change}
    (ha : a ∈ waiting events) : a ∈ waiting events' := by
  have hmem : a ∈ (waiting events).filter fun b => b.2.path.same a.2.path :=
    List.mem_filter.mpr ⟨ha, Path.same_iff.mpr rfl⟩
  rw [h] at hmem
  exact List.mem_of_mem_filter hmem

/-- The changes that wait came in the order of the calls. -/
theorem times_waiting_run (p : Pending) (calls : List (Time × Call)) :
    ((waiting (p.run calls).1).map Prod.fst).Sublist (calls.map Prod.fst) := by
  induction calls using List.reverseRecOn with
  | nil => exact .slnil
  | append_singleton calls call ih =>
    rw [run_concat, waiting_concat, List.map_append]
    obtain ⟨now, x | -⟩ := call
    · rw [perform, Event.wait, List.map_append]
      exact ih.append (.refl _)
    · rw [perform]
      cases ((p.run calls).2.take? now).1 with
      | none => exact ih.trans (List.sublist_append_left _ _)
      | some burst => exact List.nil_sublist _

/-- Where changes are sorted by their times none comes after the last. -/
theorem le_lastTime? {last : Time} {a : Time × Change}
    (hsorted : ((waiting events).map Prod.fst).Pairwise (· ≤ ·))
    (hlast : lastTime? events = some last) (ha : a ∈ waiting events) : a.1 ≤ last := by
  rw [lastTime?, ← List.getLast?_map] at hlast
  obtain ⟨front, hfront⟩ := List.getLast?_eq_some_iff.mp hlast
  have hmem : a.1 ∈ front ++ [last] := hfront ▸ List.mem_map_of_mem ha
  rw [hfront, List.pairwise_append] at hsorted
  rcases List.mem_append.mp hmem with hmem | hmem
  · exact hsorted.2.2 a.1 hmem last (List.mem_singleton.mpr rfl)
  · exact Nat.le_of_eq (List.mem_singleton.mp hmem)

theorem WaitAlike.le_lastTime? {last : Time} (h : WaitAlike events events')
    (hsorted : ((waiting events').map Prod.fst).Pairwise (· ≤ ·))
    (hlast : lastTime? events = some last) :
    ∃ last', lastTime? events' = some last' ∧ last ≤ last' := by
  obtain ⟨a, ha, rfl⟩ := Option.map_eq_some_iff.mp hlast
  have hmem := h.mem (List.mem_of_getLast? ha)
  cases hlast' : lastTime? events' with
  | none =>
    rw [lastTime?, Option.map_eq_none_iff, List.getLast?_eq_none_iff] at hlast'
    rw [hlast'] at hmem
    cases hmem
  | some last' => exact ⟨last', rfl, Pending.le_lastTime? hsorted hlast' hmem⟩

/-- However they were mixed, the last of the changes is the same. -/
theorem WaitAlike.lastTime?_eq (h : WaitAlike events events')
    (hsorted : ((waiting events).map Prod.fst).Pairwise (· ≤ ·))
    (hsorted' : ((waiting events').map Prod.fst).Pairwise (· ≤ ·)) :
    lastTime? events = lastTime? events' := by
  cases hlast : lastTime? events with
  | none =>
    cases hlast' : lastTime? events' with
    | none => rfl
    | some last' =>
      obtain ⟨last, hsome, -⟩ := h.symm.le_lastTime? hsorted hlast'
      rw [hlast] at hsome
      cases hsome
  | some last =>
    obtain ⟨last', hlast', hle⟩ := h.le_lastTime? hsorted' hlast
    obtain ⟨_, hsome, hle'⟩ := h.symm.le_lastTime? hsorted hlast'
    rw [hlast, Option.some.injEq] at hsome
    subst hsome
    rw [hlast', Nat.le_antisymm hle hle']

/-! ### What a table does over all its life -/

/-- In every run of calls, who asks next is given a burst just when changes wait and the window has
passed since the last of them. The burst is what they have come to, path by path, and leaves an
empty table without a deadline. Every change that came is in one burst or still waits. How changes
of different paths were mixed makes no difference: neither to a burst, nor, when they came in the
order of time, to whether there is one. -/
theorem bursts_of_run (window : Nat) (calls : List (Time × Call)) (now : Time) :
    let (told, left) := run { window } calls
    ((left.take? now).1.isSome = true ↔ IsDue window now told) ∧
    (∀ burst, (left.take? now).1 = some burst →
      IsBurst ((waiting told).map Prod.snd) burst ∧
      (left.take? now).2.isEmpty = true ∧ (left.take? now).2.deadline? = none) ∧
    Tells told ∧
    (∀ (window' : Nat) (calls' : List (Time × Call)) (now' : Time) (burst burst' : List Change),
      let (told', left') := run { window := window' } calls'
      AgreeByPath ((waiting told).map Prod.snd) ((waiting told').map Prod.snd) →
      (left.take? now).1 = some burst → (left'.take? now').1 = some burst' → burst = burst') ∧
    (∀ calls' : List (Time × Call),
      let (told', left') := run { window } calls'
      (calls.map Prod.fst).Pairwise (· ≤ ·) → (calls'.map Prod.fst).Pairwise (· ≤ ·) →
      WaitAlike told told' → (left.take? now).1 = (left'.take? now).1) := by
  have hawaits := awaits_run window calls
  have htimes := times_waiting_run { window } calls
  refine ⟨?_, fun burst hburst => ?_, tells_run window calls,
    fun window' calls' now' burst burst' hagree hburst hburst' => ?_,
    fun calls' hsorted hsorted' halike => ?_⟩
  · rcases hawaits.take?_cases now with ⟨hdue, htake⟩ | ⟨hnot, htake⟩ <;> rw [htake]
    · exact iff_of_true rfl hdue
    · exact iff_of_false Bool.false_ne_true hnot
  · obtain ⟨htake, rfl⟩ := hawaits.take?_of_some hburst
    rw [htake]
    exact ⟨hawaits.gathers.isBurst_sorted, rfl, rfl⟩
  · have hawaits' := awaits_run window' calls'
    obtain ⟨-, rfl⟩ := hawaits.take?_of_some hburst
    obtain ⟨-, rfl⟩ := hawaits'.take?_of_some hburst'
    exact hawaits.gathers.isBurst_sorted.unique hawaits'.gathers.isBurst_sorted hagree
  · have htimes' := times_waiting_run { window } calls'
    refine hawaits.take?_congr (awaits_run window calls') halike.agree ?_
    exact halike.lastTime?_eq (hsorted.sublist htimes) (hsorted'.sublist htimes')

/-- A file is deleted and comes back while another one is modified. -/
def restoring : List Change :=
  [⟨.modified, ⟨"rules/B.rule"⟩⟩, ⟨.deleted, ⟨"rules/A.rule"⟩⟩, ⟨.created, ⟨"rules/A.rule"⟩⟩]

def restored : List Change := [⟨.created, ⟨"rules/A.rule"⟩⟩, ⟨.modified, ⟨"rules/B.rule"⟩⟩]

/-- The changes come at one time; the burst is there when the window has passed, and is sorted. -/
theorem bursts_of_run_restored :
    let left := (run { window := 60 } (restoring.map fun x => (10, .add x))).2
    (left.take? 69).1 = none ∧ (left.take? 70).1 = some restored ∧ IsBurst restoring restored := by
  have hsorted : sorted restored.reverse = restored := by
    have hle : (⟨"rules/B.rule"⟩ : Path).le ⟨"rules/A.rule"⟩ = false := by decide +kernel
    simp [sorted, restored, List.mergeSort, hle]
  have hleft : (run { window := 60 } (restoring.map fun x => (10, .add x))).2 =
      { window := 60, changes := restored.reverse, last := some 10 } := by decide +kernel
  have htake : ((run { window := 60 } (restoring.map fun x => (10, .add x))).2.take? 70).1 =
      some restored := by
    rw [hleft]
    exact congrArg some hsorted
  obtain ⟨-, hburst, -⟩ := bursts_of_run 60 (restoring.map fun x => (10, .add x)) 70
  exact ⟨by decide +kernel, htake, (hburst restored htake).1⟩

end LiveRules.Pending
