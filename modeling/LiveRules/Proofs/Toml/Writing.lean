import LiveRules.Toml.Quoted
import LiveRules.Toml.Writer
import Mathlib.Tactic.IntervalCases
import Mathlib.Tactic.SplitIfs

/-!
Written texts can be read. Whichever quotes a text is written between, the reader of quoted texts
gives the text back and stops right behind it.
-/

namespace LiveRules.Toml

variable {c : Char} {cs written rest : List Char} {n : Nat}

/-! ### Escapes -/

/-- How a character may stand between double quotes. -/
inductive Spells : Char → List Char → Prop where
  | plain (c : Char) (visible : isVisible c = true) (no_quote : c ≠ '"') (no_escape : c ≠ '\\') :
    Spells c [c]
  | letter (c e : Char) (stands : escaped? e = some c) : Spells c ['\\', e]
  | code (c : Char) (small : c.toNat < 256) :
    Spells c ['\\', 'u', '0', '0', upperHex (c.toNat / 16), upperHex (c.toNat % 16)]

theorem small_of_not_isVisible (h : isVisible c = false) : c.toNat < 256 := by
  rw [isVisible, Bool.or_eq_false_iff, Bool.and_eq_false_iff] at h
  rcases h.2 with hlow | hdelete
  · have hval : c.val < 0x20 := by simpa using hlow
    have := UInt32.lt_iff_toNat_lt.mp hval
    show c.val.toNat < 256
    exact Nat.lt_trans this (by decide)
  · have hval : c.val = 0x7F := by simpa using hdelete
    show c.val.toNat < 256
    rw [hval]
    decide

theorem spells_escapedChar (h : c ≠ '"') : Spells c (escapedChar c) := by
  unfold escapedChar
  split_ifs with hb ht hn hf hr he hv
  · exact hb ▸ .letter _ 'b' rfl
  · exact ht ▸ .letter _ 't' rfl
  · exact hn ▸ .letter _ 'n' rfl
  · exact hf ▸ .letter _ 'f' rfl
  · exact hr ▸ .letter _ 'r' rfl
  · exact he ▸ .letter _ '\\' rfl
  · exact .plain c hv h he
  · exact .code c (small_of_not_isVisible (by simpa using hv))

theorem hexValue?_upperHex : ∀ n < 16, hexValue? (upperHex n) = some n := by
  decide

theorem char?_toNat (c : Char) : char? c.toNat = some c := by
  have hvalid : c.toNat.isValidChar := c.valid
  rw [char?, if_pos hvalid, Char.ofNat_toNat]

/-! ### One line -/

/-- A character that is spelled is read as itself. -/
theorem basic_spells (h : Spells c written) :
    basic .plain (written ++ rest) = push c (basic .plain rest) := by
  cases h with
  | plain hvisible hquote hescape =>
    rw [List.singleton_append, basic, if_neg hquote, if_neg hescape, if_pos hvisible]
  | letter e hstands =>
    rw [List.cons_append, basic, if_neg (by decide), if_pos rfl, List.singleton_append, basic]
    simp only [hstands]
  | code hsmall =>
    have hhigh := hexValue?_upperHex (c.toNat / 16) (by omega)
    have hlow := hexValue?_upperHex (c.toNat % 16) (by omega)
    have hzero : hexValue? '0' = some 0 := rfl
    have hsum : 16 * (16 * (16 * (16 * 0 + 0) + 0) + c.toNat / 16) + c.toNat % 16 = c.toNat := by
      omega
    simp only [List.cons_append, List.nil_append, basic, show ¬('\\' = '"') by decide, if_false,
      if_true, show escaped? 'u' = none from rfl, show codeLength? 'u' = some 4 from rfl, show 4 - 1 = 3 from rfl,
      hzero, hhigh, hlow, hsum, char?_toNat]

theorem basic_escaped (cs rest : List Char) :
    basic .plain (escapedBasic cs ++ '"' :: rest) = .ok (cs, rest) := by
  induction cs with
  | nil => rfl
  | cons c cs ih =>
    rw [escapedBasic, List.append_assoc]
    by_cases hquote : c = '"'
    · subst hquote
      rw [if_pos rfl, basic_spells (.letter '"' '"' rfl), ih]
      rfl
    · rw [if_neg hquote, basic_spells (spells_escapedChar hquote), ih]
      rfl

/-- What is written for a text on one line does not begin with a quote. -/
theorem head_escapedBasic (cs : List Char) : (escapedBasic cs).head? ≠ some '"' := by
  cases cs with
  | nil => simp [escapedBasic]
  | cons c cs =>
    rw [escapedBasic]
    by_cases hquote : c = '"'
    · simp [hquote]
    · rw [if_neg hquote]
      have hspells := spells_escapedChar hquote
      generalize escapedChar c = written at hspells
      cases hspells with
      | plain => simpa using hquote
      | letter => simp
      | code => simp

theorem literal_eq (h : ∀ c ∈ cs, isVisible c = true ∧ c ≠ '\'') :
    literal (cs ++ '\'' :: rest) = .ok (cs, rest) := by
  induction cs with
  | nil => rfl
  | cons c cs ih =>
    obtain ⟨hvisible, hquote⟩ := h c List.mem_cons_self
    rw [List.cons_append, literal, if_neg hquote, if_pos hvisible,
      ih fun c hc => h c (List.mem_cons_of_mem _ hc)]
    rfl

/-! ### Several lines -/

/-- The state in which some quotes have just been read. -/
def Lines.after : Nat → Lines
  | 0 => .plain
  | n + 1 => .quotes (n + 1)

theorem not_isLineEnd (h : isVisible c = true) : isLineEnd c rest = false := by
  have hreturn : c ≠ '\r' := by
    rintro rfl
    cases h
  have hfeed : c ≠ '\n' := by
    rintro rfl
    cases h
  simp [isLineEnd, hreturn, hfeed]

theorem ne_newline (h : isVisible c = true) : c ≠ '\n' := by
  rintro rfl
  cases h

/-- A character with which the text goes on takes the quotes before it into the text. -/
theorem basicLines_kept (hn : n < 3) (hc : c ≠ '"') : basicLines (.after n) (c :: cs) =
    if c = '\\' then pushAll (List.replicate n '"') (basicLines .opened cs)
    else if c = '\n' then pushAll (List.replicate n '"') (push c (basicLines .plain cs))
    else if isLineEnd c cs then pushAll (List.replicate n '"') (basicLines .plain cs)
    else if isVisible c then pushAll (List.replicate n '"') (push c (basicLines .plain cs))
    else .error (c :: cs) := by
  rw [basicLines.eq_def]
  cases n with
  | zero =>
    dsimp only [Lines.after, Lines.kept?]
    rw [if_neg hc]
    rfl
  | succ n =>
    dsimp only [Lines.after]
    rw [Lines.kept?, if_pos ⟨hc, hn⟩]
    dsimp only
    rw [if_neg hc]

/-- Quotes in front of a character that is spelled belong to the text. -/
theorem basicLines_spells (hn : n < 3) (h : Spells c written) :
    basicLines (.after n) (written ++ rest) =
      pushAll (List.replicate n '"') (push c (basicLines .plain rest)) := by
  have hopened : ∀ cs, basicLines (.after n) ('\\' :: cs) =
      pushAll (List.replicate n '"') (basicLines .opened cs) := by
    intro cs
    rw [basicLines_kept hn (by decide), if_pos rfl]
  cases h with
  | plain hvisible hquote hescape =>
    rw [List.singleton_append, basicLines_kept hn hquote, if_neg hescape,
      if_neg (ne_newline hvisible), not_isLineEnd hvisible, if_neg (by decide), if_pos hvisible]
  | letter e hstands =>
    rw [List.cons_append, hopened, List.singleton_append]
    simp only [basicLines, Lines.kept?, hstands]
  | code hsmall =>
    have hhigh := hexValue?_upperHex (c.toNat / 16) (by omega)
    have hlow := hexValue?_upperHex (c.toNat % 16) (by omega)
    have hzero : hexValue? '0' = some 0 := rfl
    have hsum : 16 * (16 * (16 * (16 * 0 + 0) + 0) + c.toNat / 16) + c.toNat % 16 = c.toNat := by
      omega
    rw [List.cons_append, hopened]
    simp only [List.cons_append, List.nil_append, basicLines, Lines.kept?,
      show escaped? 'u' = none from rfl, show codeLength? 'u' = some 4 from rfl,
      show 4 - 1 = 3 from rfl, hzero, hhigh, hlow, hsum, char?_toNat]

theorem basicLines_quote (hn : n < 3) :
    basicLines (.after n) ('"' :: cs) = basicLines (.quotes (n + 1)) cs := by
  cases n with
  | zero => rfl
  | succ n =>
    rw [Lines.after, basicLines, Lines.kept?, if_neg (by simp)]
    · dsimp only
      rw [if_neg (by simp), if_neg (by omega)]

theorem basicLines_close (hn : n < 3) (hrest : rest.head? ≠ some '"') :
    basicLines (.after n) ('"' :: '"' :: '"' :: rest) = .ok (List.replicate n '"', rest) := by
  rw [basicLines_quote hn]
  cases rest with
  | nil => interval_cases n <;> rfl
  | cons c rest =>
    have hc : c ≠ '"' := by simpa using hrest
    interval_cases n <;> simp [basicLines, Lines.kept?, closed, hc]

/-- The text with some quotes in front of it is read from what is written for it behind them. -/
theorem basicLines_escaped (hn : n < 3) (hrest : rest.head? ≠ some '"') :
    basicLines (.after n) (escapedLines n cs ++ '"' :: '"' :: '"' :: rest) =
      .ok (List.replicate n '"' ++ cs, rest) := by
  induction cs generalizing n with
  | nil => rw [escapedLines, List.nil_append, basicLines_close hn hrest, List.append_nil]
  | cons c cs ih =>
    have hplain : basicLines .plain (escapedLines 0 cs ++ '"' :: '"' :: '"' :: rest) =
        .ok (cs, rest) := ih (show 0 < 3 by decide)
    rw [escapedLines]
    by_cases hquote : c = '"'
    · subst hquote
      rw [if_pos rfl]
      by_cases htwo : n = 2
      · -- the third quote in a row is escaped
        rw [if_pos htwo]
        show basicLines _ (['\\', '"'] ++ escapedLines 0 cs ++ _) = _
        rw [List.append_assoc, basicLines_spells hn (.letter '"' '"' rfl), hplain]
        rfl
      · rw [if_neg htwo, List.cons_append, basicLines_quote hn]
        show basicLines (.after (n + 1)) _ = _
        rw [ih (by omega), List.replicate_succ', List.append_assoc, List.singleton_append]
    · rw [if_neg hquote]
      by_cases hfeed : c = '\n'
      · subst hfeed
        rw [if_pos rfl, List.cons_append, basicLines_kept hn hquote, if_neg (by decide), if_pos rfl,
          hplain]
        rfl
      · rw [if_neg hfeed, List.append_assoc, basicLines_spells hn (spells_escapedChar hquote), hplain]
        rfl

theorem le_longestRun (q : Char) (n : Nat) (cs : List Char) : n ≤ longestRun q n cs := by
  induction cs generalizing n with
  | nil => exact Nat.le_refl n
  | cons c cs ih =>
    rw [longestRun]
    split
    · have := ih (n + 1)
      omega
    · omega

theorem ne_of_longestRun {q : Char} (h : longestRun q 0 cs = 0) : ∀ c ∈ cs, c ≠ q := by
  induction cs with
  | nil => simp
  | cons c cs ih =>
    rw [longestRun] at h
    by_cases hc : c = q
    · rw [if_pos hc] at h
      have := le_longestRun q (0 + 1) cs
      omega
    · rw [if_neg hc] at h
      intro d hd
      rcases List.mem_cons.mp hd with rfl | hd
      · exact hc
      · exact ih (by omega) d hd

/-- Between three single quotes a character is read as itself. -/
theorem literalLines_kept (hn : n < 3) (hc : c ≠ '\'') (h : c = '\n' ∨ isVisible c = true) :
    literalLines (.after n) (c :: cs) =
      pushAll (List.replicate n '\'') (push c (literalLines .plain cs)) := by
  have hkept : literalLines (.after n) (c :: cs) =
      if c = '\n' then pushAll (List.replicate n '\'') (push c (literalLines .plain cs))
      else if isLineEnd c cs then pushAll (List.replicate n '\'') (literalLines .plain cs)
      else if isVisible c then pushAll (List.replicate n '\'') (push c (literalLines .plain cs))
      else .error (c :: cs) := by
    rw [literalLines.eq_def]
    cases n with
    | zero =>
      dsimp only [Lines.after, Lines.kept?]
      rw [if_neg hc]
      rfl
    | succ n =>
      dsimp only [Lines.after]
      rw [Lines.kept?, if_pos ⟨hc, hn⟩]
      dsimp only
      rw [if_neg hc]
  rw [hkept]
  by_cases hfeed : c = '\n'
  · rw [if_pos hfeed]
  · have hvisible := h.resolve_left hfeed
    rw [if_neg hfeed, not_isLineEnd hvisible, if_neg (by decide), if_pos hvisible]

theorem literalLines_quote (hn : n < 3) :
    literalLines (.after n) ('\'' :: cs) = literalLines (.quotes (n + 1)) cs := by
  cases n with
  | zero => rfl
  | succ n =>
    rw [Lines.after, literalLines, Lines.kept?, if_neg (by simp)]
    · dsimp only
      rw [if_neg (by simp), if_neg (by omega)]

theorem literalLines_close (hn : n < 3) (hrest : rest.head? ≠ some '\'') :
    literalLines (.after n) ('\'' :: '\'' :: '\'' :: rest) = .ok (List.replicate n '\'', rest) := by
  rw [literalLines_quote hn]
  cases rest with
  | nil => interval_cases n <;> rfl
  | cons c rest =>
    have hc : c ≠ '\'' := by simpa using hrest
    interval_cases n <;> simp [literalLines, Lines.kept?, closed, hc]

theorem literalLines_eq (hrun : longestRun '\'' n cs ≤ 2) (hrest : rest.head? ≠ some '\'')
    (h : ∀ c ∈ cs, c = '\n' ∨ isVisible c = true) :
    literalLines (.after n) (cs ++ '\'' :: '\'' :: '\'' :: rest) =
      .ok (List.replicate n '\'' ++ cs, rest) := by
  induction cs generalizing n with
  | nil =>
    have hn : n < 3 := Nat.lt_succ_of_le hrun
    rw [List.nil_append, literalLines_close hn hrest, List.append_nil]
  | cons c cs ih =>
    have hn : n < 3 := Nat.lt_succ_of_le (Nat.le_trans (le_longestRun _ _ _) hrun)
    have hcs : ∀ c ∈ cs, c = '\n' ∨ isVisible c = true := fun c hc =>
      h c (List.mem_cons_of_mem _ hc)
    rw [longestRun] at hrun
    rw [List.cons_append]
    by_cases hquote : c = '\''
    · subst hquote
      rw [if_pos rfl] at hrun
      rw [literalLines_quote hn]
      show literalLines (.after (n + 1)) _ = _
      rw [ih hrun hcs, List.replicate_succ', List.append_assoc, List.singleton_append]
    · rw [if_neg hquote] at hrun
      have hplain : literalLines .plain (cs ++ '\'' :: '\'' :: '\'' :: rest) = .ok (cs, rest) :=
        ih (n := 0) (by omega) hcs
      rw [literalLines_kept hn hquote (h c List.mem_cons_self), hplain]
      rfl

/-! ### All quotes -/

/-- What follows a text must not go on with its quotes. -/
def EndsText (rest : List Char) : Prop := rest.head? ≠ some '"' ∧ rest.head? ≠ some '\''

/-- Without control characters a text holds line ends and visible characters only. -/
theorem visible_of_no_codes (h : cs.any needsCode = false) :
    ∀ c ∈ cs, c = '\n' ∨ isVisible c = true := by
  intro c hc
  have hcode := List.any_eq_false.mp h c hc
  by_cases hfeed : c = '\n'
  · exact .inl hfeed
  · refine .inr ?_
    by_contra hv
    have htab : c ≠ '\t' := by
      rintro rfl
      exact hv rfl
    simp [needsCode, htab, hfeed, hv] at hcode

theorem quoted?_basic (cs : List Char) (hrest : rest.head? ≠ some '"') :
    quoted? (Quoting.delimiter .basic ++ Quoting.body .basic cs ++ Quoting.delimiter .basic ++ rest) =
      some (.ok (cs, rest)) := by
  have hread := basic_escaped cs rest
  have hhead := head_escapedBasic cs
  simp only [Quoting.delimiter, Quoting.body, List.append_assoc, List.singleton_append]
  generalize escapedBasic cs = written at hread hhead
  cases written with
  | nil =>
    cases rest with
    | nil => exact congrArg some hread
    | cons c rest =>
      have hc : c ≠ '"' := by simpa using hrest
      rw [quoted?.eq_def]
      simp_all
  | cons c written =>
    have hc : c ≠ '"' := by simpa using hhead
    rw [List.cons_append, quoted?]
    · rw [← hread, List.cons_append]
    · simp [hc]

theorem quoted?_literal (h : ∀ c ∈ cs, isVisible c = true ∧ c ≠ '\'') (hne : cs ≠ []) :
    quoted? (Quoting.delimiter .literal ++ cs ++ Quoting.delimiter .literal ++ rest) =
      some (.ok (cs, rest)) := by
  have hread : literal (cs ++ '\'' :: rest) = .ok (cs, rest) := literal_eq h
  simp only [Quoting.delimiter, List.append_assoc, List.singleton_append]
  cases cs with
  | nil => exact absurd rfl hne
  | cons c cs =>
    have hc : c ≠ '\'' := (h c List.mem_cons_self).2
    rw [List.cons_append, quoted?]
    · rw [← hread, List.cons_append]
    · simp [hc]

theorem skipFirstLine_of_head (h : ∀ c ∈ cs.head?, c ≠ '\n' ∧ c ≠ '\r') : skipFirstLine cs = cs := by
  cases cs with
  | nil => rfl
  | cons c cs =>
    obtain ⟨hfeed, hreturn⟩ := h c rfl
    rw [skipFirstLine, afterNewline?.eq_def]
    simp [hfeed, hreturn]

theorem skipFirstLine_body (h : '\n' ∉ cs → ∀ c ∈ written.head?, c ≠ '\n' ∧ c ≠ '\r') :
    skipFirstLine ((if cs.contains '\n' then ['\n'] else []) ++ written) = written := by
  by_cases hfeed : '\n' ∈ cs
  · rw [if_pos (by simpa using hfeed)]
    rfl
  · rw [if_neg (by simpa using hfeed), List.nil_append, skipFirstLine_of_head (h hfeed)]

theorem head_escapedLines (h : '\n' ∉ cs) :
    ∀ c ∈ (escapedLines 0 cs ++ '"' :: rest).head?, c ≠ '\n' ∧ c ≠ '\r' := by
  cases cs with
  | nil => simp [escapedLines]
  | cons c cs =>
    have hfeed : c ≠ '\n' := fun he => h (he ▸ List.mem_cons_self)
    rw [escapedLines]
    by_cases hquote : c = '"'
    · simp [hquote]
    · rw [if_neg hquote, if_neg hfeed]
      have hspells := spells_escapedChar hquote
      generalize escapedChar c = written at hspells
      cases hspells with
      | plain hvisible =>
        have hreturn : c ≠ '\r' := by
          rintro rfl
          cases hvisible
        simp [hfeed, hreturn]
      | letter => simp
      | code => simp

theorem quoted?_basicLines (cs : List Char) (hrest : rest.head? ≠ some '"') :
    quoted? (Quoting.delimiter .basicLines ++ Quoting.body .basicLines cs ++
      Quoting.delimiter .basicLines ++ rest) = some (.ok (cs, rest)) := by
  have hread : basicLines (.after 0) (escapedLines 0 cs ++ '"' :: '"' :: '"' :: rest) =
      .ok (List.replicate 0 '"' ++ cs, rest) := basicLines_escaped (by decide) hrest
  simp only [Quoting.delimiter, Quoting.body, List.append_assoc, List.cons_append, List.nil_append,
    quoted?]
  rw [skipFirstLine_body head_escapedLines]
  exact congrArg some hread

theorem quoted?_literalLines (hrun : longestRun '\'' 0 cs ≤ 2)
    (h : ∀ c ∈ cs, c = '\n' ∨ isVisible c = true) (hrest : rest.head? ≠ some '\'') :
    quoted? (Quoting.delimiter .literalLines ++ Quoting.body .literalLines cs ++
      Quoting.delimiter .literalLines ++ rest) = some (.ok (cs, rest)) := by
  have hread := literalLines_eq hrun hrest h
  simp only [Quoting.delimiter, Quoting.body, List.append_assoc, List.cons_append, List.nil_append,
    quoted?]
  rw [skipFirstLine_body]
  · exact congrArg some hread
  · intro hfeed c hc
    cases cs with
    | nil =>
      obtain rfl : c = '\'' := by simpa using hc.symm
      exact ⟨by decide, by decide⟩
    | cons b cs =>
      obtain rfl : c = b := by simpa using hc.symm
      rcases h c List.mem_cons_self with rfl | hvisible
      · exact absurd List.mem_cons_self hfeed
      · refine ⟨ne_newline hvisible, ?_⟩
        rintro rfl
        cases hvisible

theorem of_ofText_literal (hcodes : cs.any needsCode = false)
    (h : Quoting.ofText cs = .literal) : cs ≠ [] ∧ '\n' ∉ cs ∧ longestRun '\'' 0 cs = 0 := by
  refine ⟨?_, ?_⟩
  · rintro rfl
    cases h
  · simp only [Quoting.ofText, hcodes] at h
    split_ifs at h with _ hliteral
    · simpa [and_comm] using hliteral

theorem of_ofText_literalLines (hcodes : cs.any needsCode = false)
    (h : Quoting.ofText cs = .literalLines) : longestRun '\'' 0 cs ≤ 2 := by
  simp only [Quoting.ofText, hcodes] at h
  split_ifs at h with _ _ _ hlines
  · simpa using hlines

/-- A text is read from what is written for it. -/
theorem quoted?_writeText (s : String) (h : EndsText rest) :
    quoted? ((writeText s).toList ++ rest) = some (.ok (s.toList, rest)) := by
  rw [writeText, String.toList_ofList]
  generalize s.toList = cs
  by_cases hcodes : cs.any needsCode = true
  · -- control characters are only written between double quotes
    by_cases hfeed : cs.contains '\n' = true
    · have hquoting : Quoting.ofText cs = .basicLines := by
        simp only [Quoting.ofText, hcodes, hfeed]
        rfl
      rw [hquoting, quoted?_basicLines cs h.1]
    · have hquoting : Quoting.ofText cs = .basic := by
        simp only [Quoting.ofText, hcodes, hfeed]
        rfl
      rw [hquoting, quoted?_basic cs h.1]
  · have hcodes' : cs.any needsCode = false := by simpa using hcodes
    have hvisible := visible_of_no_codes hcodes'
    rcases hquoting : Quoting.ofText cs
    · exact quoted?_basic cs h.1
    · obtain ⟨hne, hfeed, hrun⟩ := of_ofText_literal hcodes' hquoting
      refine quoted?_literal (fun c hc => ⟨?_, ne_of_longestRun hrun c hc⟩) hne
      exact (hvisible c hc).resolve_left fun he => hfeed (he ▸ hc)
    · exact quoted?_basicLines cs h.1
    · exact quoted?_literalLines (of_ofText_literalLines hcodes' hquoting) hvisible h.2

end LiveRules.Toml
