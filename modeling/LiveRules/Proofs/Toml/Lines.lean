import LiveRules.Proofs.Toml.Writing
import LiveRules.Toml.Reader

/-!
Documents that are written line by line: comments, headers of one name, and pairs of a bare key
with a text or a word. Each line is read as the statement it was written for.
-/

namespace LiveRules.Toml

variable {cs rest word : List Char} {found : List Statement} {fuel depth : Nat}

/-- A text states just these statements. -/
def States (cs : List Char) (found : List Statement) : Prop :=
  ∀ fuel, cs.length < fuel → statements fuel cs = (found, none)

theorem states_nil : States [] [] := by
  intro fuel hfuel
  obtain ⟨fuel, rfl⟩ : ∃ n, fuel = n + 1 := ⟨fuel - 1, by simp at hfuel; omega⟩
  rfl

theorem dropWhile_append {p : Char → Bool} {c : Char} (h : ∀ c ∈ cs, p c = true)
    (hc : p c = false) : (cs ++ c :: rest).dropWhile p = c :: rest := by
  induction cs with
  | nil => simp [hc]
  | cons b cs ih =>
    rw [List.cons_append, List.dropWhile_cons_of_pos (h b List.mem_cons_self),
      ih fun c hc => h c (List.mem_cons_of_mem _ hc)]

theorem takeWhile_append {p : Char → Bool} {c : Char} (h : ∀ c ∈ cs, p c = true)
    (hc : p c = false) : (cs ++ c :: rest).takeWhile p = cs := by
  induction cs with
  | nil => simp [hc]
  | cons b cs ih =>
    rw [List.cons_append, List.takeWhile_cons_of_pos (h b List.mem_cons_self),
      ih fun c hc => h c (List.mem_cons_of_mem _ hc)]

theorem States.comment (h : States rest found) (hcs : ∀ c ∈ cs, isVisible c = true) :
    States ('#' :: cs ++ '\n' :: rest) found := by
  intro fuel hfuel
  obtain ⟨fuel, rfl⟩ : ∃ n, fuel = n + 1 := ⟨fuel - 1, by omega⟩
  have hskip : skipSpace ('#' :: cs ++ '\n' :: rest) = '#' :: (cs ++ '\n' :: rest) := rfl
  have hdrop : skipComment (cs ++ '\n' :: rest) = '\n' :: rest := dropWhile_append hcs rfl
  have hend : lineEnd ('#' :: (cs ++ '\n' :: rest)) = .ok rest := by
    rw [List.cons_append] at hskip
    simp only [lineEnd, hskip, hdrop, afterNewline?]
  unfold statements
  simp only [hskip, hend]
  exact h fuel (by simp at hfuel; omega)

theorem States.blank (h : States rest found) : States ('\n' :: rest) found := by
  intro fuel hfuel
  obtain ⟨fuel, rfl⟩ : ∃ n, fuel = n + 1 := ⟨fuel - 1, by omega⟩
  show statements fuel rest = _
  exact h fuel (by simp at hfuel; omega)

/-! ### Keys -/

/-- A word that may stand as a key without quotes. -/
structure IsWord (word : List Char) : Prop where
  ne_nil : word ≠ []
  bare : ∀ c ∈ word, isBare c = true

instance : Decidable (IsWord word) :=
  decidable_of_iff (word ≠ [] ∧ word.all isBare = true)
    ⟨fun h => ⟨h.1, List.all_eq_true.mp h.2⟩, fun h => ⟨h.ne_nil, List.all_eq_true.mpr h.bare⟩⟩

theorem ne_of_isBare {b c : Char} (h : isBare b = true) (hc : isBare c = false) : b ≠ c := by
  rintro rfl
  rw [h] at hc
  cases hc

theorem IsWord.keyPart_eq {c : Char} (h : IsWord word) (hc : isBare c = false) :
    keyPart (word ++ c :: rest) = .ok (word, c :: rest) := by
  have htake : (word ++ c :: rest).takeWhile isBare = word := takeWhile_append h.bare hc
  have hdrop : (word ++ c :: rest).dropWhile isBare = c :: rest := dropWhile_append h.bare hc
  obtain ⟨b, word', rfl⟩ := List.exists_cons_of_ne_nil h.ne_nil
  have hb := h.bare b List.mem_cons_self
  rw [List.cons_append] at htake hdrop ⊢
  rw [keyPart]
  · rw [htake, hdrop]
    rfl
  · exact fun _ he => ne_of_isBare hb rfl (List.cons.inj he).1
  · exact fun _ he => ne_of_isBare hb rfl (List.cons.inj he).1

theorem IsWord.skipSpace_eq (h : IsWord word) : skipSpace (word ++ rest) = word ++ rest := by
  obtain ⟨b, word', rfl⟩ := List.exists_cons_of_ne_nil h.ne_nil
  have hb := h.bare b List.mem_cons_self
  have hspace : isSpace b = false := by
    have hblank : b ≠ ' ' := ne_of_isBare hb rfl
    have htab : b ≠ '\t' := ne_of_isBare hb rfl
    simp [isSpace, hblank, htab]
  exact List.dropWhile_cons_of_neg (by simp [hspace])

/-- A key of one word, up to the character behind it. -/
theorem IsWord.key_eq {c : Char} (h : IsWord word) (tail after : List Char)
    (htail : tail = c :: rest) (hc : isBare c = false) (hskip : skipSpace tail = after)
    (hpoint : after.head? ≠ some '.') :
    ∃ mark, key (word ++ tail) = .ok ([⟨.ofList word, mark⟩], after) := by
  subst htail
  have hpath : keyPath ((word ++ c :: rest).length + 1) (word ++ c :: rest) =
      .ok ([⟨.ofList word, (word ++ c :: rest).length⟩], after) := by
    rw [keyPath]
    dsimp only
    rw [h.skipSpace_eq, h.keyPart_eq hc]
    dsimp only
    rw [hskip]
    split
    · exact absurd rfl hpoint
    · rfl
  refine ⟨(word ++ c :: rest).length, ?_⟩
  rw [key, hpath]
  rfl

/-! ### Pairs and headers -/

/-- A value is read from what is written for it at the end of a line. -/
structure Yields (written rest : List Char) (node : Node) : Prop where
  value : ∀ fuel, Toml.value (fuel + 1) 0 (written ++ '\n' :: rest) = .ok (node, '\n' :: rest)
  skipSpace : Toml.skipSpace (written ++ '\n' :: rest) = written ++ '\n' :: rest

/-- Every text begins with a quote. -/
theorem exists_writeText (s : String) :
    ∃ q cs, (writeText s).toList = q :: cs ∧ (q = '"' ∨ q = '\'') := by
  rw [writeText, String.toList_ofList]
  cases Quoting.ofText s.toList with
  | basic => exact ⟨'"', _, rfl, .inl rfl⟩
  | literal => exact ⟨'\'', _, rfl, .inr rfl⟩
  | basicLines => exact ⟨'"', _, rfl, .inl rfl⟩
  | literalLines => exact ⟨'\'', _, rfl, .inr rfl⟩

theorem exists_yields_text (s : String) (rest : List Char) :
    ∃ mark, Yields (writeText s).toList rest (.string mark s) := by
  have hread : quoted? ((writeText s).toList ++ '\n' :: rest) = some (.ok (s.toList, '\n' :: rest)) :=
    quoted?_writeText s ⟨by simp, by simp⟩
  obtain ⟨q, cs, hcs, hq⟩ := exists_writeText s
  refine ⟨((writeText s).toList ++ '\n' :: rest).length, fun fuel => ?_, ?_⟩
  · rw [value.eq_def]
    dsimp only
    rw [hread]
    dsimp only
    rw [String.ofList_toList]
  · rw [hcs]
    rcases hq with rfl | rfl <;> rfl

theorem yields_false (rest : List Char) :
    ∃ mark, Yields ['f', 'a', 'l', 's', 'e'] rest (.boolean mark false) :=
  ⟨_, fun _ => rfl, rfl⟩

theorem statements_pair {b : Char} (h : isBare b = true) :
    statements (fuel + 1) (b :: cs) =
      match pair (b :: cs) with
      | .error rest => ([], some rest)
      | .ok (statement, rest) =>
        (statement :: (statements fuel rest).1, (statements fuel rest).2) := by
  have hspace : isSpace b = false := by
    have hblank : b ≠ ' ' := ne_of_isBare h rfl
    have htab : b ≠ '\t' := ne_of_isBare h rfl
    simp [isSpace, hblank, htab]
  have hskip : skipSpace (b :: cs) = b :: cs := List.dropWhile_cons_of_neg (by simp [hspace])
  rw [statements.eq_def]
  dsimp only
  rw [hskip]
  have hfeed : b ≠ '\n' := ne_of_isBare h rfl
  have hreturn : b ≠ '\r' := ne_of_isBare h rfl
  have hcomment : b ≠ '#' := ne_of_isBare h rfl
  have hbracket : b ≠ '[' := ne_of_isBare h rfl
  split
  case h_1 he => cases he
  case h_2 he => exact absurd (List.cons.inj he).1 hcomment
  case h_3 he => exact absurd (List.cons.inj he).1 hbracket
  case h_4 he => exact absurd (List.cons.inj he).1 hfeed
  case h_5 he => exact absurd (List.cons.inj he).1 hreturn
  case h_6 => cases pair (b :: cs) <;> rfl

theorem States.pair {written : List Char} {node : Node} (h : States rest found)
    (hword : IsWord word) (hvalue : Yields written rest node) : ∃ mark mark',
      States (word ++ ' ' :: '=' :: ' ' :: (written ++ '\n' :: rest))
        (.pair mark [⟨.ofList word, mark'⟩] node :: found) := by
  obtain ⟨mark', hkey⟩ := hword.key_eq (' ' :: '=' :: ' ' :: (written ++ '\n' :: rest))
    ('=' :: ' ' :: (written ++ '\n' :: rest)) rfl (by decide) rfl (by simp)
  generalize hcs : word ++ ' ' :: '=' :: ' ' :: (written ++ '\n' :: rest) = cs at hkey ⊢
  have hpair : Toml.pair cs = .ok (.pair cs.length [⟨.ofList word, mark'⟩] node, rest) := by
    rw [Toml.pair, hkey]
    simp only
    rw [show skipSpace (' ' :: (written ++ '\n' :: rest)) = written ++ '\n' :: rest from
      hvalue.skipSpace, hvalue.value]
    rfl
  refine ⟨cs.length, mark', fun fuel hfuel => ?_⟩
  obtain ⟨fuel, rfl⟩ : ∃ n, fuel = n + 1 := ⟨fuel - 1, by omega⟩
  have hrest : rest.length < fuel := by
    rw [← hcs] at hfuel
    simp at hfuel
    omega
  obtain ⟨b, word', rfl⟩ := List.exists_cons_of_ne_nil hword.ne_nil
  obtain ⟨cs', rfl⟩ : ∃ cs', cs = b :: cs' := ⟨_, hcs.symm⟩
  rw [statements_pair (hword.bare b List.mem_cons_self), hpair]
  dsimp only
  rw [h fuel hrest]

theorem States.header (h : States rest found) (hword : IsWord word) : ∃ mark mark',
    States ('[' :: (word ++ ']' :: '\n' :: rest))
      (.header mark [⟨.ofList word, mark'⟩] :: found) := by
  obtain ⟨mark', hkey⟩ := hword.key_eq (']' :: '\n' :: rest) (']' :: '\n' :: rest) rfl (by decide)
    rfl (by simp)
  have hheader : Toml.header ('[' :: (word ++ ']' :: '\n' :: rest)) =
      .ok (.header ('[' :: (word ++ ']' :: '\n' :: rest)).length [⟨.ofList word, mark'⟩], rest) := by
    obtain ⟨b, word', rfl⟩ := List.exists_cons_of_ne_nil hword.ne_nil
    have hbracket : b ≠ '[' := ne_of_isBare (hword.bare b List.mem_cons_self) rfl
    rw [Toml.header.eq_def]
    simp only [List.cons_append] at hkey ⊢
    split
    · rename_i heq
      exact absurd (List.cons.inj (List.cons.inj heq).2).1 hbracket
    · rename_i heq
      obtain rfl := (List.cons.inj heq).2
      rw [hkey]
      rfl
    · rename_i hno
      exact absurd rfl (hno _)
  refine ⟨('[' :: (word ++ ']' :: '\n' :: rest)).length, mark', fun fuel hfuel => ?_⟩
  obtain ⟨fuel, rfl⟩ : ∃ n, fuel = n + 1 := ⟨fuel - 1, by omega⟩
  have hread : statements (fuel + 1) ('[' :: (word ++ ']' :: '\n' :: rest)) =
      match Toml.header ('[' :: (word ++ ']' :: '\n' :: rest)) with
      | .error rest => ([], some rest)
      | .ok (statement, rest) =>
        (statement :: (statements fuel rest).1, (statements fuel rest).2) := rfl
  rw [hread, hheader]
  dsimp only
  rw [h fuel (by simp at hfuel; omega)]

/-- A text that states something is the document that they build. -/
theorem States.document {c : Char} (h : States (c :: cs) found) (draft : Draft)
    (hmark : c ≠ '\uFEFF') (hadd : ({} : Draft).addAll found = .ok draft) :
    document (c :: cs) = .ok draft.entries := by
  rw [Toml.document, skipByteOrderMark, if_neg hmark, h _ (Nat.lt_succ_self _)]
  dsimp only
  rw [hadd]

end LiveRules.Toml
