import LiveRules.Text.Cut
import Mathlib.Data.List.Basic

/-!
Cutting and joining undo each other: a text cut at a separator is the list of its pieces, and
pieces without the separator come back from the joined text.
-/

namespace LiveRules.Text

variable {sep : Char} {cs xs ys : List Char}

@[simp] theorem split_cons_sep : split sep (sep :: cs) = [] :: split sep cs := by
  simp [split]

/-- A character that does not separate goes to the first piece. -/
theorem split_cons_of_ne {c : Char} {piece : List Char} {rest : List (List Char)} (hc : c ≠ sep)
    (h : split sep cs = piece :: rest) : split sep (c :: cs) = (c :: piece) :: rest := by
  rw [split, if_neg hc, h]

theorem split_of_not_mem (h : sep ∉ cs) : split sep cs = [cs] := by
  induction cs with
  | nil => rfl
  | cons c cs ih =>
    rw [List.mem_cons, not_or] at h
    exact split_cons_of_ne (Ne.symm h.1) (ih h.2)

theorem split_append_sep : split sep (xs ++ sep :: ys) = split sep xs ++ split sep ys := by
  induction xs with
  | nil => exact split_cons_sep
  | cons c xs ih =>
    by_cases hc : c = sep
    · subst hc
      rw [List.cons_append, split_cons_sep, split_cons_sep, ih, List.cons_append]
    · cases hs : split sep xs with
      | nil => exact absurd hs (split_ne_nil sep xs)
      | cons piece rest =>
        rw [hs, List.cons_append] at ih
        rw [List.cons_append, split_cons_of_ne hc ih, split_cons_of_ne hc hs, List.cons_append]

theorem not_mem_of_mem_split {piece : List Char} (h : piece ∈ split sep cs) : sep ∉ piece := by
  induction cs generalizing piece with
  | nil =>
    rw [split, List.mem_singleton] at h
    simp [h]
  | cons c cs ih =>
    by_cases hc : c = sep
    · subst hc
      rw [split_cons_sep, List.mem_cons] at h
      rcases h with rfl | h
      · exact List.not_mem_nil
      · exact ih h
    · cases hs : split sep cs with
      | nil => exact absurd hs (split_ne_nil sep cs)
      | cons first rest =>
        rw [split_cons_of_ne hc hs, List.mem_cons] at h
        rcases h with rfl | h
        · have hfirst : sep ∉ first := ih (by rw [hs]; exact List.mem_cons_self)
          simp [hfirst, Ne.symm hc]
        · exact ih (by rw [hs]; exact List.mem_cons_of_mem _ h)

theorem joined_cons {piece : List Char} {rest : List (List Char)} (h : rest ≠ []) :
    joined xs (piece :: rest) = piece ++ xs ++ joined xs rest := by
  cases rest with
  | nil => exact absurd rfl h
  | cons q rest => rfl

theorem joined_append {ps qs : List (List Char)} (hp : ps ≠ []) (hq : qs ≠ []) :
    joined xs (ps ++ qs) = joined xs ps ++ xs ++ joined xs qs := by
  induction ps with
  | nil => exact absurd rfl hp
  | cons p rest ih =>
    cases rest with
    | nil => rw [List.singleton_append, joined_cons hq, joined]
    | cons p' rest =>
      have htail : p' :: rest ≠ [] := List.cons_ne_nil _ _
      rw [List.cons_append, joined_cons (by simp), ih htail, joined_cons htail]
      simp only [List.append_assoc]

theorem mem_joined {pieces : List (List Char)} {piece : List Char} {c : Char}
    (h : piece ∈ pieces) (hc : c ∈ piece) : c ∈ joined xs pieces := by
  induction pieces with
  | nil => simp at h
  | cons first rest ih =>
    by_cases hrest : rest = []
    · subst hrest
      rwa [← List.mem_singleton.mp h]
    · rw [joined_cons hrest, List.mem_append, List.mem_append]
      rcases List.mem_cons.mp h with rfl | h
      · exact .inl (.inl hc)
      · exact .inr (ih h)

theorem mem_of_mem_joined {pieces : List (List Char)} {c : Char} (h : c ∈ joined xs pieces) :
    c ∈ xs ∨ ∃ piece ∈ pieces, c ∈ piece := by
  induction pieces with
  | nil => cases h
  | cons first rest ih =>
    by_cases hrest : rest = []
    · subst hrest
      exact .inr ⟨first, List.mem_cons_self, h⟩
    · rw [joined_cons hrest, List.mem_append, List.mem_append] at h
      rcases h with (h | h) | h
      · exact .inr ⟨first, List.mem_cons_self, h⟩
      · exact .inl h
      · refine (ih h).imp_right fun hrest => ?_
        obtain ⟨piece, hpiece, hc⟩ := hrest
        exact ⟨piece, List.mem_cons_of_mem first hpiece, hc⟩

theorem split_joined {pieces : List (List Char)} (hne : pieces ≠ [])
    (h : ∀ piece ∈ pieces, sep ∉ piece) : split sep (joined [sep] pieces) = pieces := by
  induction pieces with
  | nil => exact absurd rfl hne
  | cons piece rest ih =>
    have hpiece := h piece List.mem_cons_self
    by_cases hrest : rest = []
    · subst hrest
      exact split_of_not_mem hpiece
    · rw [joined_cons hrest, List.append_assoc, List.singleton_append, split_append_sep,
        split_of_not_mem hpiece, ih hrest fun q hq => h q (List.mem_cons_of_mem _ hq)]
      rfl

/-- What is added to a text without a separator goes to its last piece. -/
theorem split_append_of_not_mem {front : List (List Char)} {last : List Char}
    (h : split sep xs = front ++ [last]) (hy : sep ∉ ys) :
    split sep (xs ++ ys) = front ++ [last ++ ys] := by
  have hpieces : ∀ piece ∈ front ++ [last ++ ys], sep ∉ piece := by
    intro piece hp
    have hold (q : List Char) (hq : q ∈ front ++ [last]) : sep ∉ q :=
      not_mem_of_mem_split (by rw [h]; exact hq)
    rw [List.mem_append, List.mem_singleton] at hp
    rcases hp with hp | rfl
    · exact hold piece (List.mem_append_left _ hp)
    · rw [List.mem_append, not_or]
      exact ⟨hold last (by simp), hy⟩
  have htext : xs ++ ys = joined [sep] (front ++ [last ++ ys]) := by
    rw [← joined_split sep xs, h]
    by_cases hfront : front = []
    · simp [hfront, joined]
    · rw [joined_append hfront (by simp), joined_append hfront (by simp)]
      simp [joined]
  rw [htext, split_joined (by simp) hpieces]

theorem split_injective (h : split sep xs = split sep ys) : xs = ys := by
  rw [← joined_split sep xs, ← joined_split sep ys, h]

theorem splitLast?_eq_none_iff : splitLast? sep cs = none ↔ sep ∉ cs := by
  induction cs with
  | nil => simp [splitLast?]
  | cons c cs ih =>
    rw [splitLast?]
    cases hs : splitLast? sep cs with
    | some x =>
      rw [hs] at ih
      simp only [reduceCtorEq, false_iff, not_not] at ih ⊢
      exact List.mem_cons_of_mem c ih
    | none =>
      rw [hs] at ih
      have hcs := ih.mp rfl
      by_cases hc : c = sep
      · simp [hc]
      · simp [hc, hcs, Ne.symm hc]

/-- The last separator is the one after which there is none. -/
theorem splitLast?_append (h : sep ∉ ys) : splitLast? sep (xs ++ sep :: ys) = some (xs, ys) := by
  induction xs with
  | nil => simp [splitLast?, splitLast?_eq_none_iff.mpr h]
  | cons c xs ih => simp [splitLast?, ih]

theorem eq_of_splitLast? {before after : List Char}
    (h : splitLast? sep cs = some (before, after)) :
    cs = before ++ sep :: after ∧ sep ∉ after := by
  induction cs generalizing before after with
  | nil => simp [splitLast?] at h
  | cons c cs ih =>
    rw [splitLast?] at h
    cases hs : splitLast? sep cs with
    | some x =>
      rw [hs] at h
      simp only [Option.some.injEq, Prod.mk.injEq] at h
      obtain ⟨rfl, rfl⟩ := h
      obtain ⟨hcs, hafter⟩ := ih hs
      exact ⟨by rw [List.cons_append, ← hcs], hafter⟩
    | none =>
      rw [hs] at h
      have hcs := splitLast?_eq_none_iff.mp hs
      by_cases hc : c = sep
      · simp only [hc, ↓reduceIte, Option.some.injEq, Prod.mk.injEq] at h
        obtain ⟨rfl, rfl⟩ := h
        exact ⟨by rw [hc, List.nil_append], hcs⟩
      · simp [hc] at h

end LiveRules.Text
