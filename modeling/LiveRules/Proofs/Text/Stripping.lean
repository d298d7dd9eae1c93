import LiveRules.Proofs.Text.Colours

/-!
What stripping leaves. No two colour sequences of a text overlap, so one scan takes out all of them.
But then the two sides of each one are joined, and a sequence that was torn apart by others is whole
afterwards. The main statement says that this is all: a stripped text has a colour sequence, and
stripping it again takes something out, exactly if the text had a torn one; and a text is its own
stripped text exactly if it has no colour sequence.
-/

namespace LiveRules.Text

variable {c : Char} {xs : List Char}

/-- A text that is one colour sequence. -/
def IsColour (xs : List Char) : Prop :=
  ∃ params, params.all isColourDigit = true ∧ xs = escape :: '[' :: (params ++ ['m'])

/-- A text that is one colour sequence, but for complete other ones between its characters, at least
one of them. -/
def IsTorn (xs : List Char) : Prop :=
  ∃ params inner, params.all isColourDigit = true ∧ Coloured ('[' :: params) inner ∧
    inner ≠ '[' :: params ∧ xs = escape :: (inner ++ ['m'])

def HasColour (xs : List Char) : Prop := ∃ part, IsColour part ∧ part <:+: xs

def HasTorn (xs : List Char) : Prop := ∃ part, IsTorn part ∧ part <:+: xs

/-! ### Finding sequences -/

theorem interrupts_escape : Interrupts escape := ⟨by decide, by decide, by decide⟩

theorem colourLength?_ne_none {seq : List Char} (hseq : IsColour seq) (h : seq <+: xs) :
    colourLength? xs ≠ none := by
  obtain ⟨params, hdigits, rfl⟩ := hseq
  obtain ⟨rest, rfl⟩ := h
  have htext : escape :: '[' :: (params ++ ['m']) ++ rest =
      escape :: '[' :: (params ++ 'm' :: rest) := by simp
  rw [htext, colourLength?_colour hdigits]
  simp

theorem colourLength?_of_not_mem (h : 'm' ∉ xs) : colourLength? xs = none := by
  rw [Option.eq_none_iff_forall_ne_some]
  intro n hn
  obtain ⟨params, rest, rfl, -, -⟩ := eq_of_colourLength? hn
  simp at h

theorem not_hasColour_nil : ¬ HasColour [] := by
  rintro ⟨part, ⟨params, -, rfl⟩, hpart⟩
  simp at hpart

/-- Where no sequence begins, those of a text are the ones behind its first character. -/
theorem hasColour_cons_iff (h : colourLength? (c :: xs) = none) :
    HasColour (c :: xs) ↔ HasColour xs := by
  constructor
  · rintro ⟨part, hcolour, hpart⟩
    rcases List.infix_cons_iff.mp hpart with hfirst | hrest
    · exact absurd h (colourLength?_ne_none hcolour hfirst)
    · exact ⟨part, hcolour, hrest⟩
  · rintro ⟨part, hcolour, hpart⟩
    exact ⟨part, hcolour, List.infix_cons hpart⟩

theorem hasColour_colour {params : List Char} (hdigits : params.all isColourDigit = true)
    (rest : List Char) : HasColour (escape :: '[' :: (params ++ 'm' :: rest)) :=
  ⟨_, ⟨params, hdigits, rfl⟩, [], rest, by simp⟩

/-! ### Texts without sequences -/

theorem Coloured.length_le {plain shown : List Char} (h : Coloured plain shown) :
    plain.length ≤ shown.length := by
  induction h with
  | nil => exact Nat.le_refl 0
  | char c _ ih => simpa using ih
  | colour params _ _ ih =>
    simp only [List.length_cons, List.length_append]
    omega

theorem stripFrom_eq_self_iff (xs : List Char) : stripFrom 0 xs = xs ↔ ¬ HasColour xs := by
  induction xs using strip_induction with
  | nil => simp [stripFrom, not_hasColour_nil]
  | char c rest hcolour ih =>
    rw [stripFrom_char hcolour, hasColour_cons_iff hcolour, ← ih]
    simp
  | colour params rest hdigits ih =>
    have hshort := (coloured_stripFrom rest).length_le
    have hne : stripFrom 0 rest ≠ escape :: '[' :: (params ++ 'm' :: rest) := fun heq => by
      rw [heq] at hshort
      simp only [List.length_cons, List.length_append] at hshort
      omega
    rw [stripFrom_colour hdigits]
    simp [hne, hasColour_colour hdigits rest]

/-! ### Torn sequences -/

/-- Up to the first sequence that is put in, a text is as it was. -/
theorem Coloured.eq_or_begins {plain shown : List Char} (h : Coloured plain shown) :
    shown = plain ∨ ∃ front back, front <+: plain ∧ shown = front ++ escape :: back := by
  induction h with
  | nil => exact .inl rfl
  | char c _ ih =>
    rcases ih with rfl | ⟨front, back, hfront, rfl⟩
    · exact .inl rfl
    · exact .inr ⟨c :: front, back, (List.prefix_cons_inj c).mpr hfront, rfl⟩
  | colour params _ _ _ => exact .inr ⟨[], _, List.nil_prefix, rfl⟩

theorem colourLength?_of_append {ys : List Char} (h : colourLength? (xs ++ ys) = none) :
    colourLength? xs = none := by
  rw [Option.eq_none_iff_forall_ne_some]
  intro n hn
  obtain ⟨params, rest, rfl, hdigits, -⟩ := eq_of_colourLength? hn
  exact colourLength?_ne_none ⟨params, hdigits, rfl⟩ ⟨rest ++ ys, by simp⟩ h

/-- A character that is left by stripping stands in the text where no sequence begins, and what is
before it and what is behind it are stripped apart from each other. -/
theorem exists_of_stripFrom_eq {before after : List Char}
    (h : stripFrom 0 xs = before ++ c :: after) : ∃ front back, xs = front ++ c :: back ∧
      stripFrom 0 front = before ∧ stripFrom 0 back = after ∧ colourLength? (c :: back) = none := by
  induction xs using strip_induction generalizing before with
  | nil => simp [stripFrom] at h
  | char d rest hcolour ih =>
    rw [stripFrom_char hcolour] at h
    cases before with
    | nil =>
      obtain ⟨rfl, hrest⟩ := List.cons.inj h
      exact ⟨[], rest, rfl, rfl, hrest, hcolour⟩
    | cons b before =>
      obtain ⟨rfl, hrest⟩ := List.cons.inj h
      obtain ⟨front, back, rfl, hfront, hback, hkept⟩ := ih hrest
      have hfirst : colourLength? (d :: front) = none := colourLength?_of_append hcolour
      exact ⟨d :: front, back, rfl, by rw [stripFrom_char hfirst, hfront], hback, hkept⟩
  | colour params rest hdigits ih =>
    rw [stripFrom_colour hdigits] at h
    obtain ⟨front, back, rfl, hfront, hback, hkept⟩ := ih h
    refine ⟨escape :: '[' :: (params ++ 'm' :: front), back, by simp, ?_, hback, hkept⟩
    rw [stripFrom_colour hdigits, hfront]

/-- What stripping joins to a sequence was one, torn apart. -/
theorem hasTorn_of_hasColour (h : HasColour (stripFrom 0 xs)) : HasTorn xs := by
  obtain ⟨part, ⟨params, hdigits, rfl⟩, before, after, hpart⟩ := h
  have hfirst : stripFrom 0 xs = before ++ escape :: ('[' :: params ++ 'm' :: after) := by
    rw [← hpart]
    simp
  -- the text is cut at the escape and at the letter that stripping kept
  obtain ⟨front, rest, rfl, -, hrest, hkept⟩ := exists_of_stripFrom_eq hfirst
  obtain ⟨inner, back, rfl, hinner, -, -⟩ := exists_of_stripFrom_eq hrest
  refine ⟨escape :: (inner ++ ['m']), ⟨params, inner, hdigits, ?_, ?_, rfl⟩, front, back, ?_⟩
  · rw [← hinner]
    exact coloured_stripFrom inner
  · -- a whole sequence would have been taken out
    rintro rfl
    have hwhole := colourLength?_colour hdigits back
    rw [List.cons_append, hwhole] at hkept
    simp at hkept
  · simp

/-- No sequence begins where a torn one does. -/
theorem colourLength?_torn {params inner : List Char} (hdigits : params.all isColourDigit = true)
    (hinner : Coloured ('[' :: params) inner) (hne : inner ≠ '[' :: params) (rest : List Char) :
    colourLength? (escape :: (inner ++ rest)) = none := by
  obtain ⟨front, back, hfront, rfl⟩ := hinner.eq_or_begins.resolve_left hne
  have hend : 'm' ∉ escape :: front := fun hmem => by
    have hplain : 'm' ∈ '[' :: params :=
      hfront.subset ((List.mem_cons.mp hmem).resolve_left (by decide))
    simp [not_mem_params hdigits (by decide : isColourDigit 'm' = false)] at hplain
  have hhead : colourLength? (escape :: front) = none := colourLength?_of_not_mem hend
  have htext : escape :: (front ++ escape :: back ++ rest) =
      (escape :: front) ++ escape :: (back ++ rest) := by simp
  rw [htext]
  exact colourLength?_append_of_interrupts interrupts_escape hhead (List.cons_ne_nil _ _) _

/-- A torn sequence is joined by stripping. -/
theorem hasColour_of_hasTorn (h : HasTorn xs) : HasColour (stripFrom 0 xs) := by
  obtain ⟨part, ⟨params, inner, hdigits, hinner, hne, rfl⟩, front, back, rfl⟩ := h
  have hescape : escape ∉ '[' :: params := by
    rw [List.mem_cons, not_or]
    exact ⟨by decide, not_mem_params hdigits (by decide)⟩
  refine ⟨_, ⟨params, hdigits, rfl⟩, stripFrom 0 front, stripFrom 0 back, Eq.symm ?_⟩
  calc stripFrom 0 (front ++ escape :: (inner ++ ['m']) ++ back)
      = stripFrom 0 (front ++ escape :: (inner ++ 'm' :: back)) := by simp
    _ = stripFrom 0 front ++ stripFrom 0 (escape :: (inner ++ 'm' :: back)) :=
        stripFrom_append_of_interrupts interrupts_escape front _
    _ = stripFrom 0 front ++ escape :: stripFrom 0 (inner ++ 'm' :: back) := by
        rw [stripFrom_char (colourLength?_torn hdigits hinner hne _)]
    _ = stripFrom 0 front ++ escape :: ('[' :: params ++ stripFrom 0 ('m' :: back)) := by
        rw [stripFrom_append_of_coloured hinner hescape]
    _ = stripFrom 0 front ++ escape :: '[' :: (params ++ ['m']) ++ stripFrom 0 back := by
        rw [stripFrom_char (colourLength?_of_ne (by decide) back)]
        simp

/-! ### One pass -/

/-- A stripped text has a colour sequence exactly if the text had a torn one, and a second pass
changes nothing exactly if it has none; a text is left as it is exactly if none is in it. -/
theorem stripColours_leaves_iff (s : String) :
    (HasColour (stripColours s).toList ↔ HasTorn s.toList) ∧
      (stripColours (stripColours s) = stripColours s ↔ ¬ HasColour (stripColours s).toList) ∧
      (stripColours s = s ↔ ¬ HasColour s.toList) := by
  have hself (s : String) : stripColours s = s ↔ ¬ HasColour s.toList := by
    rw [← stripFrom_eq_self_iff, stripColours, String.ext_iff, String.toList_ofList]
  refine ⟨?_, hself (stripColours s), hself s⟩
  rw [stripColours, String.toList_ofList]
  exact ⟨hasTorn_of_hasColour, hasColour_of_hasTorn⟩

/-- The two halves of a torn sequence are joined, and only a second pass takes out the whole. -/
theorem stripColours_joins :
    HasColour (stripColours "\x1b[3\x1b[0m1m").toList ∧
      stripColours (stripColours "\x1b[3\x1b[0m1m") ≠ stripColours "\x1b[3\x1b[0m1m" := by
  have hleft : stripColours "\x1b[3\x1b[0m1m" = "\x1b[31m" := by decide
  rw [hleft]
  have hdigits : ['3', '1'].all isColourDigit = true := by decide
  exact ⟨hasColour_colour hdigits [], by decide⟩

end LiveRules.Text
