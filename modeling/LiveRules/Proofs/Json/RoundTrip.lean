import LiveRules.Json.Printer
import LiveRules.Json.Record
import Mathlib.Data.List.Forall2

/-!
Printed documents can be read. A document whose texts name their characters and whose numbers are
within reach is what its printed text is read as, whatever it is printed in front of.
-/

namespace LiveRules.Json

open LiveRules.Decimal

variable {cs rest : List Char} {fuel level : Nat}

/-! ### Texts -/

/-- A piece of a text stands for a character. -/
inductive Piece.Says : Piece → Char → Prop where
  | char (c : Char) : Says (.char c) c
  | unit (c : Char) (h : c.toNat < 32) : Says (.unit c.toNat) c

theorem charsOf?_of_says {pieces : List Piece} (h : List.Forall₂ Piece.Says pieces cs) :
    charsOf? pieces = some cs := by
  induction h with
  | nil => rfl
  | @cons piece c pieces cs hsays _ ih =>
    cases hsays with
    | char => rw [charsOf?, ih, Option.map_some]
    | unit hc =>
      have hhigh : isHigh c.toNat = false := by
        rw [isHigh, Bool.and_eq_false_iff]
        exact .inl (by simp; omega)
      have hlow : isLow c.toNat = false := by
        rw [isLow, Bool.and_eq_false_iff]
        exact .inl (by simp; omega)
      cases pieces with
      | nil => simp_all [charsOf?]
      | cons next more =>
        cases next with
        | char d => simp_all [charsOf?]
        | unit n =>
          rw [charsOf?, if_neg (by simp [hhigh]), if_neg (by simp [hlow]), ih, Option.map_some,
            Char.ofNat_toNat]

theorem hexNumber?_control : ∀ n < 32,
    hexNumber? '0' '0' (hexDigit (n / 16)) (hexDigit (n % 16)) = some n := by
  decide

/-- An escaped character is read as one piece. -/
theorem takePieces?_escaped (c : Char) : ∃ piece, Piece.Says piece c ∧
    ∀ rest, takePieces? (escaped c ++ rest) =
      (takePieces? rest).map fun x => (piece :: x.1, x.2) := by
  have hshort {e : Char} (he : shortEscape? e = some c) (hu : e ≠ 'u')
      (hc : escaped c = ['\\', e]) : ∃ piece, Piece.Says piece c ∧
      ∀ rest, takePieces? (escaped c ++ rest) =
        (takePieces? rest).map fun x => (piece :: x.1, x.2) := by
    refine ⟨.char c, .char c, fun rest => ?_⟩
    rw [hc, List.cons_append, List.cons_append, List.nil_append, takePieces?]
    · cases takePieces? rest <;> simp [he]
    · exact fun a b c d cs he _ => hu he
  by_cases hq : c = '"'
  · subst hq
    exact hshort (e := '"') rfl (by decide) rfl
  by_cases hb : c = '\\'
  · subst hb
    exact hshort (e := '\\') rfl (by decide) rfl
  by_cases h8 : c = '\x08'
  · subst h8
    exact hshort (e := 'b') rfl (by decide) rfl
  by_cases hf : c = '\x0c'
  · subst hf
    exact hshort (e := 'f') rfl (by decide) rfl
  by_cases hn : c = '\n'
  · subst hn
    exact hshort (e := 'n') rfl (by decide) rfl
  by_cases hr : c = '\r'
  · subst hr
    exact hshort (e := 'r') rfl (by decide) rfl
  by_cases ht : c = '\t'
  · subst ht
    exact hshort (e := 't') rfl (by decide) rfl
  by_cases hcontrol : c.val < 32
  · have hnat : c.toNat < 32 := UInt32.lt_iff_toNat_lt.mp hcontrol
    refine ⟨.unit c.toNat, .unit c hnat, fun rest => ?_⟩
    rw [escaped, if_neg hq, if_neg hb, if_neg h8, if_neg hf, if_neg hn, if_neg hr, if_neg ht,
      if_pos hcontrol]
    simp only [List.cons_append, List.nil_append, takePieces?, hexNumber?_control c.toNat hnat]
    cases takePieces? rest <;> rfl
  · refine ⟨.char c, .char c, fun rest => ?_⟩
    rw [escaped, if_neg hq, if_neg hb, if_neg h8, if_neg hf, if_neg hn, if_neg hr, if_neg ht,
      if_neg hcontrol, List.singleton_append, takePieces?, if_neg hcontrol]
    · cases takePieces? rest <;> rfl
    all_goals simp [hq, hb]

theorem takePieces?_flatMap (cs rest : List Char) : ∃ pieces,
    takePieces? (cs.flatMap escaped ++ '"' :: rest) = some (pieces, rest) ∧
      List.Forall₂ Piece.Says pieces cs := by
  induction cs with
  | nil => exact ⟨[], rfl, .nil⟩
  | cons c cs ih =>
    obtain ⟨pieces, hpieces, hsays⟩ := ih
    obtain ⟨piece, hpiece, htake⟩ := takePieces?_escaped c
    refine ⟨piece :: pieces, ?_, .cons hpiece hsays⟩
    rw [List.flatMap_cons, List.append_assoc, htake, hpieces]
    rfl

theorem takeText?_quoted (s : String) (rest : List Char) :
    takeText? (s.toList.flatMap escaped ++ '"' :: rest) = some (some s, rest) := by
  obtain ⟨pieces, hpieces, hsays⟩ := takePieces?_flatMap s.toList rest
  simp only [takeText?, hpieces, Option.bind_eq_bind, Option.bind_some, charsOf?_of_says hsays,
    Option.map_some, String.ofList_toList]

/-! ### Numbers -/

/-- What may follow a number: nothing, or a character that no number goes on with. -/
def EndsNumber (cs : List Char) : Prop :=
  ∀ c ∈ cs.head?, isDigit c = false ∧ c ≠ '.' ∧ c ≠ 'e' ∧ c ≠ 'E'

theorem EndsNumber.takeWhile (h : EndsNumber rest) : rest.takeWhile isDigit = [] := by
  cases rest with
  | nil => rfl
  | cons c cs => simp [(h c rfl).1]

theorem EndsNumber.dropWhile (h : EndsNumber rest) : rest.dropWhile isDigit = rest := by
  cases rest with
  | nil => rfl
  | cons c cs => simp [(h c rfl).1]

/-- Digits are cut off in the same way when there is more behind the text. -/
theorem takeDigits?_append {ds more : List Char} (hrest : EndsNumber rest)
    (h : takeDigits? cs = some (ds, more)) : takeDigits? (cs ++ rest) = some (ds, more ++ rest) := by
  have hsplit : (cs ++ rest).takeWhile isDigit = cs.takeWhile isDigit ∧
      (cs ++ rest).dropWhile isDigit = cs.dropWhile isDigit ++ rest := by
    clear h
    induction cs with
    | nil => simp [hrest.takeWhile, hrest.dropWhile]
    | cons c cs ih => by_cases hc : isDigit c = true <;> simp [hc, ih]
  unfold takeDigits? at h ⊢
  rw [hsplit.1, hsplit.2]
  cases hds : cs.takeWhile isDigit with
  | nil => simp [hds] at h
  | cons d ds' =>
    simp only [hds, Option.some.injEq, Prod.mk.injEq] at h ⊢
    exact ⟨h.1, by rw [h.2]⟩

theorem takeWhole?_append {ds more : List Char} (hrest : EndsNumber rest)
    (h : takeWhole? cs = some (ds, more)) : takeWhole? (cs ++ rest) = some (ds, more ++ rest) := by
  unfold takeWhole? at h ⊢
  cases hds : takeDigits? cs with
  | none => simp [hds] at h
  | some x =>
    obtain ⟨ds', more'⟩ := x
    rw [takeDigits?_append hrest hds]
    rw [hds] at h
    split at h
    · cases h
    · rename_i hne
      rw [Option.some.injEq, Prod.mk.injEq] at h
      obtain ⟨rfl, rfl⟩ := h
      split
      · rename_i hzero
        rw [Option.some.injEq, Prod.mk.injEq] at hzero
        exact absurd (by rw [hzero.1]) (hne _ _ _)
      · rfl

theorem takeFraction?_append {x : Option (List Char)} {more : List Char} (hrest : EndsNumber rest)
    (h : takeFraction? cs = some (x, more)) :
    takeFraction? (cs ++ rest) = some (x, more ++ rest) := by
  cases cs with
  | nil =>
    simp only [takeFraction?, Option.some.injEq, Prod.mk.injEq] at h
    obtain ⟨rfl, rfl⟩ := h
    cases rest with
    | nil => rfl
    | cons c cs =>
      rw [List.nil_append, takeFraction?]
      intro cs' hc
      exact (hrest c rfl).2.1 (List.cons.inj hc).1
  | cons c cs =>
    by_cases hc : c = '.'
    · subst hc
      rw [List.cons_append, takeFraction?]
      rw [takeFraction?, Option.map_eq_some_iff] at h
      obtain ⟨⟨ds, more'⟩, hds, hx⟩ := h
      rw [takeDigits?_append hrest hds]
      cases hx
      rfl
    · have hdot : ∀ cs', c :: cs = '.' :: cs' → False := fun cs' he => hc (List.cons.inj he).1
      have hdot' : ∀ cs', c :: (cs ++ rest) = '.' :: cs' → False :=
        fun cs' he => hc (List.cons.inj he).1
      rw [takeFraction?.eq_2 _ hdot, Option.some.injEq, Prod.mk.injEq] at h
      obtain ⟨rfl, rfl⟩ := h
      rw [List.cons_append, takeFraction?.eq_2 _ hdot']

theorem takeSign_append (hne : cs ≠ []) :
    takeSign (cs ++ rest) = ((takeSign cs).1, (takeSign cs).2 ++ rest) := by
  obtain ⟨c, cs, rfl⟩ := List.exists_cons_of_ne_nil hne
  rw [List.cons_append, takeSign.eq_def, takeSign.eq_def (c :: cs)]
  split <;> simp_all

theorem takeExponent?_append {x : Option (Bool × List Char)} {more : List Char}
    (hrest : EndsNumber rest) (h : takeExponent? cs = some (x, more)) :
    takeExponent? (cs ++ rest) = some (x, more ++ rest) := by
  cases cs with
  | nil =>
    simp only [takeExponent?, Option.some.injEq, Prod.mk.injEq] at h
    obtain ⟨rfl, rfl⟩ := h
    cases rest with
    | nil => rfl
    | cons c cs =>
      obtain ⟨-, -, he, hE⟩ := hrest c rfl
      rw [List.nil_append, takeExponent?, if_neg (not_or.mpr ⟨he, hE⟩)]
  | cons c cs =>
    rw [List.cons_append]
    rw [takeExponent?] at h ⊢
    by_cases hc : c = 'e' ∨ c = 'E'
    · rw [if_pos hc] at h ⊢
      obtain ⟨⟨ds, more'⟩, hds, hx⟩ := Option.map_eq_some_iff.mp h
      have hne : cs ≠ [] := by
        rintro rfl
        simp [takeSign, takeDigits?] at hds
      rw [takeSign_append hne, takeDigits?_append hrest hds]
      cases hx
      rfl
    · rw [if_neg hc] at h ⊢
      rw [Option.some.injEq, Prod.mk.injEq] at h
      obtain ⟨rfl, rfl⟩ := h
      rfl

theorem takeMinus_append (hne : cs ≠ []) :
    takeMinus (cs ++ rest) = ((takeMinus cs).1, (takeMinus cs).2 ++ rest) := by
  obtain ⟨c, cs, rfl⟩ := List.exists_cons_of_ne_nil hne
  rw [List.cons_append, takeMinus.eq_def, takeMinus.eq_def (c :: cs)]
  split <;> simp_all

/-- A number starts with a minus or a digit. -/
theorem head_of_literal {l : Literal} {more : List Char} (h : Literal.take? cs = some (l, more)) :
    ∃ c cs', cs = c :: cs' ∧ (c = '-' ∨ isDigit c = true) := by
  cases cs with
  | nil => simp [Literal.take?, takeMinus, takeWhole?, takeDigits?] at h
  | cons c cs' =>
    refine ⟨c, cs', rfl, ?_⟩
    by_contra hno
    rw [not_or, Bool.not_eq_true] at hno
    have hminus : takeMinus (c :: cs') = (false, c :: cs') := by
      rw [takeMinus.eq_def]
      split <;> simp_all
    simp [Literal.take?, hminus, takeWhole?, takeDigits?, hno.2] at h

theorem Literal.take?_append {l : Literal} {more : List Char} (hrest : EndsNumber rest)
    (h : Literal.take? cs = some (l, more)) :
    Literal.take? (cs ++ rest) = some (l, more ++ rest) := by
  obtain ⟨c, cs', rfl, -⟩ := head_of_literal h
  simp only [Literal.take?, Option.bind_eq_bind, Option.bind_eq_some_iff, Prod.exists,
    takeMinus_append (List.cons_ne_nil c cs')] at h ⊢
  obtain ⟨whole, cs₁, hwhole, fraction, cs₂, hfraction, exponent, cs₃, hexponent, hl⟩ := h
  refine ⟨whole, _, takeWhole?_append hrest hwhole, fraction, _,
    takeFraction?_append hrest hfraction, exponent, _, takeExponent?_append hrest hexponent, ?_⟩
  rw [Option.some.injEq, Prod.mk.injEq] at hl ⊢
  exact ⟨hl.1, by rw [hl.2]⟩

theorem takeNumber?_append {l : Literal} (hrest : EndsNumber rest)
    (h : Literal.take? cs = some (l, [])) :
    takeNumber? (cs ++ rest) = some (.number (.ofList cs), rest) := by
  have htake := Literal.take?_append hrest h
  rw [List.nil_append] at htake
  simp only [takeNumber?, htake, Option.bind_eq_bind, Option.bind_some, List.length_append,
    Nat.add_sub_cancel, List.take_left]

/-! ### White space -/

theorem skipSpace_of_not_isSpace {c : Char} (h : isSpace c = false) :
    skipSpace (c :: cs) = c :: cs := by
  simp [skipSpace, h]

theorem skipSpace_indent : skipSpace ('\n' :: indent level ++ cs) = skipSpace cs := by
  have hspaces : ∀ n, skipSpace (List.replicate n ' ' ++ cs) = skipSpace cs := by
    intro n
    induction n with
    | zero => rfl
    | succ n ih =>
      rw [List.replicate_succ, List.cons_append, skipSpace, List.dropWhile_cons_of_pos (by rfl)]
      exact ih
  rw [List.cons_append, skipSpace, List.dropWhile_cons_of_pos (by rfl)]
  exact hspaces (2 * level)

theorem skipSpace_blank : skipSpace (' ' :: cs) = skipSpace cs :=
  List.dropWhile_cons_of_pos (by rfl)

theorem skipSpace_skipSpace : skipSpace (skipSpace cs) = skipSpace cs := by
  induction cs with
  | nil => rfl
  | cons c cs ih =>
    by_cases hc : isSpace c = true
    · have hskip : skipSpace (c :: cs) = skipSpace cs := List.dropWhile_cons_of_pos hc
      rw [hskip, ih]
    · rw [skipSpace_of_not_isSpace (by simpa using hc), skipSpace_of_not_isSpace (by simpa using hc)]

theorem takeValue?_congr {cs' : List Char} (h : skipSpace cs = skipSpace cs') :
    takeValue? fuel cs = takeValue? fuel cs' := by
  cases fuel with
  | zero => rfl
  | succ fuel => rw [takeValue?, takeValue?, h]

theorem takeItems?_congr {cs' : List Char} (h : skipSpace cs = skipSpace cs') :
    takeItems? fuel cs = takeItems? fuel cs' := by
  cases fuel with
  | zero => rfl
  | succ fuel => rw [takeItems?, takeItems?, takeValue?_congr h]

theorem takeMembers?_congr {cs' : List Char} (h : skipSpace cs = skipSpace cs') :
    takeMembers? fuel cs = takeMembers? fuel cs' := by
  cases fuel with
  | zero => rfl
  | succ fuel => rw [takeMembers?, takeMembers?, h]

/-! ### Documents -/

/-- A character with which a printed document may start. -/
structure Starts (c : Char) : Prop where
  not_space : isSpace c = false
  ne_bracket : c ≠ ']'
  ne_brace : c ≠ '\x7d'

theorem starts_of_isDigit {c : Char} (h : c = '-' ∨ isDigit c = true) : Starts c ∧
    c ≠ '"' ∧ c ≠ '[' ∧ c ≠ '\x7b' ∧ c ≠ 'n' ∧ c ≠ 't' ∧ c ≠ 'f' := by
  rcases h with rfl | h
  · exact ⟨⟨by decide, by decide, by decide⟩, by decide⟩
  · have hne {e : Char} (he : isDigit e = false) : c ≠ e := by
      rintro rfl
      rw [h] at he
      cases he
    refine ⟨⟨?_, hne (by decide), hne (by decide)⟩, hne (by decide), hne (by decide),
      hne (by decide), hne (by decide), hne (by decide), hne (by decide)⟩
    simp [isSpace, hne (e := ' ') (by decide), hne (e := '\n') (by decide),
      hne (e := '\t') (by decide), hne (e := '\r') (by decide)]

theorem literal_of_isSound {literal : String} (h : (Json.number literal).isSound = true) :
    ∃ l, Literal.take? literal.toList = some (l, []) := by
  rw [isSound, number?] at h
  split at h
  · rename_i l hl
    exact ⟨l, hl⟩
  · cases h

theorem exists_prettyChars {json : Json} (h : json.isSound = true) (level : Nat) :
    ∃ c cs, prettyChars level json = c :: cs ∧ Starts c := by
  cases json with
  | null => exact ⟨_, _, rfl, by decide, by decide, by decide⟩
  | bool b => cases b <;> exact ⟨_, _, rfl, by decide, by decide, by decide⟩
  | number literal =>
    obtain ⟨l, hl⟩ := literal_of_isSound h
    obtain ⟨c, cs, hcs, hc⟩ := head_of_literal hl
    exact ⟨c, cs, by rw [prettyChars, hcs], (starts_of_isDigit hc).1⟩
  | text t =>
    cases t with
    | none => cases h
    | some s => exact ⟨_, _, rfl, by decide, by decide, by decide⟩
  | array items => exact ⟨_, _, rfl, by decide, by decide, by decide⟩
  | object members => exact ⟨_, _, rfl, by decide, by decide, by decide⟩

/-- The items of a list are read behind the white space in front of the first one. -/
theorem skipSpace_prettyItems {item : Json} (h : item.isSound = true) (level : Nat)
    (more : List Json) (tail : List Char) : ∃ c cs, skipSpace (prettyItems level (item :: more) ++ tail) = c :: cs ∧
      Starts c := by
  obtain ⟨c, cs, hcs, hc⟩ := exists_prettyChars h (level + 1)
  refine ⟨c, cs ++ (separator more ++ (prettyItems level more ++ tail)), ?_, hc⟩
  rw [prettyItems]
  simp only [List.append_assoc, hcs]
  rw [skipSpace_indent, List.cons_append, skipSpace_of_not_isSpace hc.not_space]

theorem endsNumber_of_ne {c : Char} (h : isDigit c = false ∧ c ≠ '.' ∧ c ≠ 'e' ∧ c ≠ 'E') :
    EndsNumber (c :: cs) := by
  intro c' hc'
  cases hc'
  exact h

theorem takeValue?_number {l : Literal} {literal : String} (hrest : EndsNumber rest)
    (h : Literal.take? literal.toList = some (l, [])) :
    takeValue? (fuel + 1) (literal.toList ++ rest) = some (.number literal, rest) := by
  obtain ⟨c, cs, hcs, hc⟩ := head_of_literal h
  obtain ⟨hstarts, hq, hb, hB, hn, ht, hf⟩ := starts_of_isDigit hc
  have htake := takeNumber?_append hrest h
  rw [hcs, List.cons_append] at htake
  rw [hcs, List.cons_append, takeValue?, skipSpace_of_not_isSpace hstarts.not_space]
  split
  · rename_i he
    cases he
  · rename_i he
    exact absurd (List.cons.inj he).1 hq
  · rename_i he
    exact absurd (List.cons.inj he).1 hb
  · rename_i he
    exact absurd (List.cons.inj he).1 hB
  · rename_i he
    exact absurd (List.cons.inj he).1 hn
  · rename_i he
    exact absurd (List.cons.inj he).1 ht
  · rename_i he
    exact absurd (List.cons.inj he).1 hf
  · rw [htake, ← hcs, String.ofList_toList]

theorem takeText?_quotedText {key : Option String} (h : key.isSome = true) (rest : List Char) :
    ∃ cs, quotedText key ++ rest = '"' :: cs ∧ takeText? cs = some (key, rest) := by
  obtain ⟨s, rfl⟩ := Option.isSome_iff_exists.mp h
  refine ⟨s.toList.flatMap escaped ++ '"' :: rest, ?_, takeText?_quoted s rest⟩
  simp [quotedText, quoted]

theorem skipSpace_closing {c : Char} (h : isSpace c = false) :
    skipSpace ('\n' :: indent level ++ c :: rest) = c :: rest := by
  rw [skipSpace_indent, skipSpace_of_not_isSpace h]

/-- The members of an object are read behind the white space in front of the first one. -/
theorem skipSpace_prettyMembers {key : Option String} (h : key.isSome = true) (level : Nat)
    (value : Json) (more : List (Option String × Json)) (tail : List Char) :
    ∃ cs, skipSpace (prettyMembers level ((key, value) :: more) ++ tail) = '"' :: cs ∧
      takeText? cs = some (key, ':' :: ' ' :: (prettyChars (level + 1) value ++
        (separator more ++ (prettyMembers level more ++ tail)))) := by
  obtain ⟨cs, hcs, htake⟩ := takeText?_quotedText h (':' :: ' ' ::
    (prettyChars (level + 1) value ++ (separator more ++ (prettyMembers level more ++ tail))))
  refine ⟨cs, ?_, htake⟩
  rw [prettyMembers]
  simp only [List.append_assoc, List.cons_append]
  rw [← List.cons_append, skipSpace_indent, hcs, skipSpace_of_not_isSpace (by decide)]

mutual

/-- A sound document is read back from its printed text, whatever stands behind it. -/
theorem takeValue?_pretty : ∀ (json : Json) (level fuel : Nat) (rest : List Char),
    json.isSound = true → EndsNumber rest → 2 * (prettyChars level json).length < fuel →
    takeValue? fuel (prettyChars level json ++ rest) = some (json, rest)
  | json, level, 0, rest, _, _, hfuel => by omega
  | .null, level, fuel + 1, rest, _, _, _ => by
    simp [takeValue?, prettyChars, skipSpace, isSpace, afterWord?]
  | .bool true, level, fuel + 1, rest, _, _, _ => by
    simp [takeValue?, prettyChars, skipSpace, isSpace, afterWord?]
  | .bool false, level, fuel + 1, rest, _, _, _ => by
    simp [takeValue?, prettyChars, skipSpace, isSpace, afterWord?]
  | .number literal, level, fuel + 1, rest, h, hrest, _ => by
    obtain ⟨l, hl⟩ := literal_of_isSound h
    exact takeValue?_number hrest hl
  | .text t, level, fuel + 1, rest, h, _, _ => by
    obtain ⟨cs, hcs, htake⟩ := takeText?_quotedText h rest
    rw [prettyChars, hcs, takeValue?, skipSpace_of_not_isSpace (by decide)]
    simp only [htake, Option.map_some]
  | .array [], level, fuel + 1, rest, _, _, _ => by
    simp [takeValue?, prettyChars, prettyItems, closing, skipSpace, isSpace]
  | .array (item :: more), level, fuel + 1, rest, h, _, hfuel => by
    simp only [isSound, areSound, Bool.and_eq_true] at h
    obtain ⟨c, cs, hskip, hc⟩ := skipSpace_prettyItems h.1 level more
      ('\n' :: indent level ++ ']' :: rest)
    have hitems := takeItems?_pretty item more level fuel rest h.1 h.2 (by
      simp only [prettyChars, List.length_append, List.length_cons] at hfuel
      omega)
    rw [← takeItems?_congr skipSpace_skipSpace, hskip] at hitems
    have htext : prettyChars level (.array (item :: more)) ++ rest =
        '[' :: (prettyItems level (item :: more) ++ ('\n' :: indent level ++ ']' :: rest)) := by
      simp [prettyChars, closing]
    rw [htext, takeValue?, skipSpace_of_not_isSpace (by decide)]
    simp only [hskip]
    split
    · rename_i he
      exact absurd (List.cons.inj he).1 hc.ne_bracket
    · rw [hitems, Option.map_some]
  | .object [], level, fuel + 1, rest, _, _, _ => by
    simp [takeValue?, prettyChars, prettyMembers, closing, skipSpace, isSpace]
  | .object ((key, value) :: more), level, fuel + 1, rest, h, _, hfuel => by
    simp only [isSound, areSoundMembers, Bool.and_eq_true] at h
    obtain ⟨cs, hskip, -⟩ := skipSpace_prettyMembers h.1.1 level value more
      ('\n' :: indent level ++ '\x7d' :: rest)
    have hmembers := takeMembers?_pretty key value more level fuel rest h.1.1 h.1.2 h.2 (by
      simp only [prettyChars, List.length_append, List.length_cons] at hfuel
      omega)
    rw [← takeMembers?_congr skipSpace_skipSpace, hskip] at hmembers
    have htext : prettyChars level (.object ((key, value) :: more)) ++ rest = '\x7b' ::
        (prettyMembers level ((key, value) :: more) ++
          ('\n' :: indent level ++ '\x7d' :: rest)) := by
      simp [prettyChars, closing]
    rw [htext, takeValue?, skipSpace_of_not_isSpace (by decide)]
    simp only [hskip]
    split
    · rename_i he
      exact absurd (List.cons.inj he).1 (by decide)
    · rw [hmembers, Option.map_some]

theorem takeItems?_pretty : ∀ (item : Json) (more : List Json) (level fuel : Nat)
    (rest : List Char), item.isSound = true → areSound more = true →
    2 * (prettyItems level (item :: more)).length < fuel →
    takeItems? fuel (prettyItems level (item :: more) ++ ('\n' :: indent level ++ ']' :: rest)) =
      some (item :: more, rest)
  | item, more, level, 0, rest, _, _, hfuel => by omega
  | item, [], level, fuel + 1, rest, hitem, _, hfuel => by
    have hvalue := takeValue?_pretty item (level + 1) fuel ('\n' :: indent level ++ ']' :: rest)
      hitem (endsNumber_of_ne (by decide)) (by
        simp only [prettyItems, List.length_append, List.length_cons] at hfuel
        omega)
    have htext : prettyItems level [item] ++ ('\n' :: indent level ++ ']' :: rest) =
        '\n' :: indent (level + 1) ++ (prettyChars (level + 1) item ++
          ('\n' :: indent level ++ ']' :: rest)) := by
      simp [prettyItems, separator]
    rw [htext, takeItems?, takeValue?_congr skipSpace_indent, hvalue]
    simp only [skipSpace_closing (show isSpace ']' = false by decide)]
  | item, next :: more, level, fuel + 1, rest, hitem, hmore, hfuel => by
    simp only [areSound, Bool.and_eq_true] at hmore
    have hvalue := takeValue?_pretty item (level + 1) fuel
      (',' :: (prettyItems level (next :: more) ++ ('\n' :: indent level ++ ']' :: rest)))
      hitem (endsNumber_of_ne (by decide)) (by
        rw [prettyItems] at hfuel
        simp only [List.length_append, List.length_cons] at hfuel
        omega)
    have hitems := takeItems?_pretty next more level fuel rest hmore.1 hmore.2 (by
      rw [prettyItems] at hfuel
      simp only [List.length_append, List.length_cons] at hfuel
      omega)
    have htext : prettyItems level (item :: next :: more) ++ ('\n' :: indent level ++ ']' :: rest) =
        '\n' :: indent (level + 1) ++ (prettyChars (level + 1) item ++
          (',' :: (prettyItems level (next :: more) ++ ('\n' :: indent level ++ ']' :: rest)))) := by
      rw [prettyItems]
      simp [separator]
    rw [htext, takeItems?, takeValue?_congr skipSpace_indent, hvalue]
    simp only [skipSpace_of_not_isSpace (show isSpace ',' = false by decide), hitems,
      Option.map_some]

theorem takeMembers?_pretty : ∀ (key : Option String) (value : Json)
    (more : List (Option String × Json)) (level fuel : Nat) (rest : List Char),
    key.isSome = true → value.isSound = true → areSoundMembers more = true →
    2 * (prettyMembers level ((key, value) :: more)).length < fuel →
    takeMembers? fuel (prettyMembers level ((key, value) :: more) ++
      ('\n' :: indent level ++ '\x7d' :: rest)) = some ((key, value) :: more, rest)
  | key, value, more, level, 0, rest, _, _, _, hfuel => by omega
  | key, value, [], level, fuel + 1, rest, hkey, hvalue, _, hfuel => by
    obtain ⟨cs, hskip, htake⟩ := skipSpace_prettyMembers hkey level value []
      ('\n' :: indent level ++ '\x7d' :: rest)
    have hread := takeValue?_pretty value (level + 1) fuel
      ('\n' :: indent level ++ '\x7d' :: rest) hvalue (endsNumber_of_ne (by decide)) (by
        simp only [prettyMembers, List.length_append, List.length_cons] at hfuel
        omega)
    rw [← takeValue?_congr skipSpace_blank] at hread
    rw [takeMembers?, hskip]
    simp only [htake, skipSpace_of_not_isSpace (show isSpace ':' = false by decide)]
    simp only [separator, prettyMembers, List.isEmpty_nil, if_true, List.nil_append, hread,
      skipSpace_closing (show isSpace '\x7d' = false by decide)]
  | key, value, (next, value') :: more, level, fuel + 1, rest, hkey, hvalue, hmore, hfuel => by
    simp only [areSoundMembers, Bool.and_eq_true] at hmore
    obtain ⟨cs, hskip, htake⟩ := skipSpace_prettyMembers hkey level value
      ((next, value') :: more) ('\n' :: indent level ++ '\x7d' :: rest)
    have hread := takeValue?_pretty value (level + 1) fuel
      (',' :: (prettyMembers level ((next, value') :: more) ++
        ('\n' :: indent level ++ '\x7d' :: rest))) hvalue (endsNumber_of_ne (by decide)) (by
        rw [prettyMembers] at hfuel
        simp only [List.length_append, List.length_cons] at hfuel
        omega)
    have hmembers := takeMembers?_pretty next value' more level fuel rest hmore.1.1 hmore.1.2
      hmore.2 (by
        rw [prettyMembers] at hfuel
        simp only [List.length_append, List.length_cons] at hfuel
        omega)
    rw [← takeValue?_congr skipSpace_blank] at hread
    rw [takeMembers?, hskip]
    simp only [htake, skipSpace_of_not_isSpace (show isSpace ':' = false by decide)]
    simp only [separator, List.isEmpty_cons, Bool.false_eq_true, if_false, List.singleton_append,
      hread, skipSpace_of_not_isSpace (show isSpace ',' = false by decide), hmembers,
      Option.map_some]

end

/-- A sound document is what its printed text is read as. -/
theorem parse?_pretty {json : Json} (h : json.isSound = true) :
    parse? json.pretty = some json := by
  have hread := takeValue?_pretty json 0 (2 * (prettyChars 0 json).length + 2) [] h
    (by rintro c ⟨⟩) (by omega)
  rw [List.append_nil] at hread
  simp [parse?, pretty, parseChars?, hread, skipSpace]

end LiveRules.Json
