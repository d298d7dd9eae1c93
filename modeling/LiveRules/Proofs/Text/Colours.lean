import LiveRules.Text.Blank
import LiveRules.Text.Colour
import LiveRules.Text.Cut
import Mathlib.Data.List.TakeWhile

/-!
Cleaning texts. Complete colour sequences between the characters of a text are what `stripFrom`
takes out, and nothing else goes; a carriage return at the end of a text neither belongs to a colour
sequence nor is left by `trimChars`.
-/

namespace LiveRules.Text

variable {c : Char} {xs plain shown : List Char}

theorem not_mem_params {params : List Char} (hdigits : params.all isColourDigit = true)
    (hc : isColourDigit c = false) : c ∉ params := fun hmem => by
  have hdigit := List.all_eq_true.mp hdigits c hmem
  simp [hc] at hdigit

/-- A text, and the same text with complete colour sequences put between its characters, in front
of the first and after the last. -/
inductive Coloured : List Char → List Char → Prop
  | nil : Coloured [] []
  | char {plain shown : List Char} (c : Char) (rest : Coloured plain shown) :
      Coloured (c :: plain) (c :: shown)
  | colour {plain shown : List Char} (params : List Char) (digits : params.all isColourDigit = true)
      (rest : Coloured plain shown) :
      Coloured plain (escape :: '[' :: (params ++ 'm' :: shown))

namespace Coloured

theorem refl (xs : List Char) : Coloured xs xs := by
  induction xs with
  | nil => exact .nil
  | cons c xs ih => exact .char c ih

theorem append {plain₁ shown₁ plain₂ shown₂ : List Char} (h₁ : Coloured plain₁ shown₁)
    (h₂ : Coloured plain₂ shown₂) : Coloured (plain₁ ++ plain₂) (shown₁ ++ shown₂) := by
  induction h₁ with
  | nil => exact h₂
  | char c _ ih => exact .char c ih
  | colour params digits _ ih =>
    rw [List.cons_append, List.cons_append, List.append_assoc, List.cons_append]
    exact .colour params digits ih

theorem not_mem (h : Coloured plain shown) (hplain : c ∉ plain) (hescape : c ≠ escape)
    (hbracket : c ≠ '[') (hdigit : isColourDigit c = false) (hend : c ≠ 'm') : c ∉ shown := by
  induction h with
  | nil => exact hplain
  | char x _ ih =>
    rw [List.mem_cons, not_or] at hplain ⊢
    exact ⟨hplain.1, ih hplain.2⟩
  | colour params digits _ ih =>
    simp [hescape, hbracket, not_mem_params digits hdigit, hend, ih hplain]

end Coloured

theorem colourLength?_colour {params : List Char} (hdigits : params.all isColourDigit = true)
    (rest : List Char) :
    colourLength? (escape :: '[' :: (params ++ 'm' :: rest)) = some (params.length + 3) := by
  have hparams (c : Char) (hc : c ∈ params) : isColourDigit c = true :=
    List.all_eq_true.mp hdigits c hc
  have hend : isColourDigit 'm' = false := by decide
  simp [colourLength?, List.dropWhile_append_of_pos hparams, List.takeWhile_append_of_pos hparams,
    hend]

/-- A length stands for a colour sequence at the start, and tells where it ends. -/
theorem eq_of_colourLength? {n : Nat} (h : colourLength? xs = some n) :
    ∃ params rest, xs = escape :: '[' :: (params ++ 'm' :: rest) ∧
      params.all isColourDigit = true ∧ n = params.length + 3 := by
  unfold colourLength? at h
  split at h
  · rename_i e rest
    split at h
    · rename_i he
      split at h
      · rename_i more hdrop
        have hcut := List.takeWhile_append_dropWhile (p := isColourDigit) (l := rest)
        rw [hdrop] at hcut
        refine ⟨rest.takeWhile isColourDigit, more, ?_, ?_, ?_⟩
        · rw [hcut, he]
        · exact List.all_takeWhile
        · simpa using h.symm
      · simp at h
    · simp at h
  · simp at h

theorem colourLength?_of_ne (hc : c ≠ escape) (rest : List Char) :
    colourLength? (c :: rest) = none := by
  rw [Option.eq_none_iff_forall_ne_some]
  intro n hn
  obtain ⟨params, more, hrest, -, -⟩ := eq_of_colourLength? hn
  exact hc (List.cons.inj hrest).1

/-! ### Stripping -/

theorem stripFrom_append (xs ys : List Char) : stripFrom xs.length (xs ++ ys) = stripFrom 0 ys := by
  induction xs with
  | nil => rfl
  | cons x xs ih => exact ih

theorem stripFrom_char {rest : List Char} (h : colourLength? (c :: rest) = none) :
    stripFrom 0 (c :: rest) = c :: stripFrom 0 rest := by
  rw [stripFrom, h]

theorem stripFrom_colour {params : List Char} (hdigits : params.all isColourDigit = true)
    (rest : List Char) :
    stripFrom 0 (escape :: '[' :: (params ++ 'm' :: rest)) = stripFrom 0 rest := by
  -- the bracket, the parameters and the letter at the end are left out with the escape
  have hskip := stripFrom_append ('[' :: (params ++ ['m'])) rest
  have htext : '[' :: (params ++ ['m']) ++ rest = '[' :: (params ++ 'm' :: rest) := by simp
  have hlength : ('[' :: (params ++ ['m'])).length = params.length + 2 := by simp
  rw [htext, hlength] at hskip
  rw [stripFrom, colourLength?_colour hdigits]
  exact hskip

theorem stripFrom_append_of_coloured (h : Coloured plain shown) (hplain : escape ∉ plain)
    (rest : List Char) : stripFrom 0 (shown ++ rest) = plain ++ stripFrom 0 rest := by
  induction h with
  | nil => rfl
  | char c _ ih =>
    rw [List.mem_cons, not_or] at hplain
    rw [List.cons_append, stripFrom_char (colourLength?_of_ne (Ne.symm hplain.1) _), ih hplain.2,
      List.cons_append]
  | colour params digits _ ih =>
    rw [List.cons_append, List.cons_append, List.append_assoc, List.cons_append,
      stripFrom_colour digits, ih hplain]

theorem stripFrom_of_coloured (h : Coloured plain shown) (hplain : escape ∉ plain) :
    stripFrom 0 shown = plain := by
  have hall := stripFrom_append_of_coloured h hplain []
  rwa [List.append_nil, stripFrom, List.append_nil] at hall

/-- A text is read from the front by taking characters, and colour sequences as wholes. -/
theorem strip_induction {P : List Char → Prop} (nil : P [])
    (char : ∀ c rest, colourLength? (c :: rest) = none → P rest → P (c :: rest))
    (colour : ∀ params rest, params.all isColourDigit = true → P rest →
      P (escape :: '[' :: (params ++ 'm' :: rest))) (xs : List Char) : P xs := by
  induction hlen : xs.length using Nat.strong_induction_on generalizing xs with
  | h n ih =>
    cases xs with
    | nil => exact nil
    | cons c rest =>
      cases hcolour : colourLength? (c :: rest) with
      | none => exact char c rest hcolour (ih rest.length (by simp [← hlen]) rest rfl)
      | some m =>
        obtain ⟨params, more, htext, hdigits, -⟩ := eq_of_colourLength? hcolour
        have hshort : more.length < n := by
          rw [← hlen, htext]
          simp only [List.length_cons, List.length_append]
          omega
        rw [htext]
        exact colour params more hdigits (ih more.length hshort more rfl)

/-- Nothing but colour sequences is stripped. -/
theorem coloured_stripFrom (xs : List Char) : Coloured (stripFrom 0 xs) xs := by
  induction xs using strip_induction with
  | nil => exact .nil
  | char c rest hcolour ih =>
    rw [stripFrom_char hcolour]
    exact .char c ih
  | colour params rest hdigits ih =>
    rw [stripFrom_colour hdigits]
    exact .colour params hdigits ih

theorem coloured_iff (hplain : escape ∉ plain) :
    Coloured plain shown ↔ stripFrom 0 shown = plain := by
  constructor
  · intro h
    exact stripFrom_of_coloured h hplain
  · rintro rfl
    exact coloured_stripFrom shown

/-- A character that stands in no colour sequence, unless it is the first one of it. -/
structure Interrupts (c : Char) : Prop where
  bracket : c ≠ '['
  digit : isColourDigit c = false
  last : c ≠ 'm'

theorem colourLength?_append_of_interrupts (hc : Interrupts c) (h : colourLength? xs = none)
    (hxs : xs ≠ []) (rest : List Char) : colourLength? (xs ++ c :: rest) = none := by
  rw [Option.eq_none_iff_forall_ne_some]
  intro n hn
  obtain ⟨params, more, htext, hdigits, -⟩ := eq_of_colourLength? hn
  have hwhole (ys : List Char) : xs ≠ escape :: '[' :: (params ++ 'm' :: ys) := by
    rintro rfl
    rw [colourLength?_colour hdigits] at h
    simp at h
  have hcut : xs ++ c :: rest = (escape :: '[' :: (params ++ ['m'])) ++ more := by
    simpa using htext
  rcases List.append_eq_append_iff.mp hcut with ⟨inside, hseq, hbehind⟩ | ⟨behind, hbefore, -⟩
  · cases inside with
    | nil => exact hwhole [] (by simpa using hseq.symm)
    | cons d inside =>
      obtain ⟨rfl, -⟩ := List.cons.inj hbehind
      -- the character stands behind the first one of the sequence
      obtain ⟨x, front, rfl⟩ := List.exists_cons_of_ne_nil hxs
      have hmem : c ∈ '[' :: (params ++ ['m']) := by
        rw [(List.cons.inj hseq).2]
        simp
      simp [hc.bracket, not_mem_params hdigits hc.digit, hc.last] at hmem
  · exact hwhole behind (by simpa using hbefore)

/-- What stands before a character that is in no colour sequence, or only begins one, is stripped on
its own. -/
theorem stripFrom_append_of_interrupts (hc : Interrupts c) (xs rest : List Char) :
    stripFrom 0 (xs ++ c :: rest) = stripFrom 0 xs ++ stripFrom 0 (c :: rest) := by
  induction xs using strip_induction with
  | nil => rfl
  | char d xs hcolour ih =>
    have hmore : colourLength? (d :: (xs ++ c :: rest)) = none :=
      colourLength?_append_of_interrupts hc hcolour (List.cons_ne_nil d xs) rest
    rw [List.cons_append, stripFrom_char hmore, stripFrom_char hcolour, ih, List.cons_append]
  | colour params xs hdigits ih =>
    have htext : escape :: '[' :: (params ++ 'm' :: xs) ++ c :: rest =
        escape :: '[' :: (params ++ 'm' :: (xs ++ c :: rest)) := by simp
    rw [htext, stripFrom_colour hdigits, stripFrom_colour hdigits, ih]

/-- A carriage return at the end neither ends a colour sequence nor breaks one. -/
theorem stripFrom_concat_return (xs : List Char) :
    stripFrom 0 (xs ++ ['\r']) = stripFrom 0 xs ++ ['\r'] :=
  stripFrom_append_of_interrupts ⟨by decide, by decide, by decide⟩ xs []

/-! ### Trimming -/

theorem trimRight_concat (hc : isBlank c = true) (xs : List Char) :
    trimRight (xs ++ [c]) = trimRight xs := by
  simp [trimRight, trimLeft, hc]

theorem trimChars_concat (hc : isBlank c = true) (xs : List Char) :
    trimChars (xs ++ [c]) = trimChars xs := by
  unfold trimChars
  by_cases h : trimLeft xs = []
  · have hone : trimLeft (xs ++ [c]) = [] := by
      rw [trimLeft] at h
      simp [trimLeft, List.dropWhile_append, h, hc]
    rw [hone, h]
  · have hmore : trimLeft (xs ++ [c]) = trimLeft xs ++ [c] := by
      rw [trimLeft] at h
      simp [trimLeft, List.dropWhile_append, h]
    rw [hmore, trimRight_concat hc]

/-- No blank stands at either end of a text. -/
structure IsTrimmed (cs : List Char) : Prop where
  head : ∀ c ∈ cs.head?, isBlank c = false
  last : ∀ c ∈ cs.getLast?, isBlank c = false

theorem trimLeft_eq_self (h : ∀ c ∈ xs.head?, isBlank c = false) : trimLeft xs = xs := by
  cases xs with
  | nil => rfl
  | cons c xs => exact trimLeft_of_not_blank (h c rfl)

theorem IsTrimmed.trimChars_eq (h : IsTrimmed xs) : trimChars xs = xs := by
  have hback : trimLeft xs.reverse = xs.reverse :=
    trimLeft_eq_self (by rw [List.head?_reverse]; exact h.last)
  rw [trimChars, trimLeft_eq_self h.head, trimRight, hback, List.reverse_reverse]

/-- Trimming takes blanks off the front and some text off the end. -/
theorem eq_trimChars (xs : List Char) :
    ∃ front back, xs = front ++ trimChars xs ++ back ∧ ∀ c ∈ front, isBlank c = true := by
  have hfront : xs.takeWhile isBlank ++ trimLeft xs = xs := List.takeWhile_append_dropWhile
  have hback : (trimLeft xs).reverse.takeWhile isBlank ++ trimLeft (trimLeft xs).reverse =
      (trimLeft xs).reverse := List.takeWhile_append_dropWhile
  have hrest : trimLeft xs =
      trimChars xs ++ ((trimLeft xs).reverse.takeWhile isBlank).reverse := by
    rw [trimChars, trimRight, ← List.reverse_append, hback, List.reverse_reverse]
  refine ⟨xs.takeWhile isBlank, ((trimLeft xs).reverse.takeWhile isBlank).reverse, ?_, ?_⟩
  · rw [List.append_assoc, ← hrest, hfront]
  · intro c hc
    exact List.mem_takeWhile_imp hc

end LiveRules.Text
