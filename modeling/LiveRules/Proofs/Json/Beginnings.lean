import LiveRules.Proofs.Json.Units

/-!
Beginnings of stored texts. What a reader has taken off a text it takes as well when more stands
behind, as long as it has seen where the value ends. So the beginning of a stored unit is no
document unless it is all of it, and a unit whose writing was broken off is not read as another.
-/

namespace LiveRules

namespace Text

/-- Bytes that a text starts with and that are a text themselves are the beginning of its
characters. -/
theorem prefix_of_decode?_extract {s t : String} {k : Nat}
    (h : decode? ((encode s).extract 0 k) = some t) : t.toList <+: s.toList := by
  have hbytes : encode t = (encode s).extract 0 k := by
    unfold decode? String.fromUTF8? at h
    split at h
    · exact congrArg encode (Option.some.inj h).symm
    · cases h
  have hsplit : encode t ++ (encode s).extract k (encode s).size = encode s := by
    rw [hbytes, ByteArray.extract_append_extract, Nat.zero_min, ByteArray.ext_iff,
      ByteArray.data_extract]
    exact Array.extract_eq_self_of_le (Nat.le_max_right k _)
  refine List.isPrefix_of_utf8Encode_append_eq_utf8Encode ((encode s).extract k (encode s).size) ?_
  rw [String.utf8Encode_toList, String.utf8Encode_toList]
  exact hsplit

end Text

namespace Json

open LiveRules.Decimal

variable {cs rest more : List Char} {fuel fuel' : Nat}

/-! ### Words, texts and numbers -/

theorem skipSpace_append {c : Char} {cs' : List Char} (h : skipSpace cs = c :: cs') :
    skipSpace (cs ++ more) = c :: (cs' ++ more) := by
  induction cs with
  | nil => cases h
  | cons d ds ih =>
    rw [skipSpace, List.dropWhile_cons] at h
    rw [List.cons_append, skipSpace, List.dropWhile_cons]
    split at h <;> rename_i hd
    · rw [if_pos hd]
      exact ih h
    · rw [if_neg hd, ← List.cons_append, h, List.cons_append]

theorem afterWord?_append {word : List Char} (h : afterWord? word cs = some rest) :
    afterWord? word (cs ++ more) = some (rest ++ more) := by
  induction word generalizing cs with
  | nil =>
    cases h
    rfl
  | cons w ws ih =>
    cases cs with
    | nil => cases h
    | cons c cs =>
      rw [afterWord?] at h
      rw [List.cons_append, afterWord?]
      split at h <;> rename_i hw
      · rw [if_pos hw]
        exact ih h
      · cases h

theorem takePieces?_append {pieces : List Piece} (h : takePieces? cs = some (pieces, rest)) :
    takePieces? (cs ++ more) = some (pieces, rest ++ more) := by
  fun_induction takePieces? cs generalizing pieces rest with
  | case1 => cases h
  | case2 cs =>
    cases h
    rfl
  | case3 a b c d cs ih =>
    simp only [Option.bind_eq_bind, Option.bind_eq_some_iff, Prod.exists] at h
    obtain ⟨n, hn, found, cs', hcs, heq⟩ := h
    cases heq
    simp only [List.cons_append, takePieces?, hn, ih hcs, Option.bind_eq_bind, Option.bind_some]
  | case4 c cs hunit ih =>
    simp only [Option.bind_eq_bind, Option.bind_eq_some_iff, Prod.exists] at h
    obtain ⟨e, he, found, cs', hcs, heq⟩ := h
    cases heq
    have hu : c ≠ 'u' := by
      rintro rfl
      cases he
    rw [List.cons_append, List.cons_append, takePieces?.eq_4 _ _ fun _ _ _ _ _ hc _ => hu hc]
    simp only [he, ih hcs, Option.bind_eq_bind, Option.bind_some]
  | case5 => cases h
  | case6 c cs hquote hunit hescape hcontrol ih =>
    simp only [Option.bind_eq_bind, Option.bind_eq_some_iff, Prod.exists] at h
    obtain ⟨found, cs', hcs, heq⟩ := h
    cases heq
    -- a backslash would stand at the end, and nothing comes to an end there
    have hbackslash : c ≠ '\\' := by
      rintro rfl
      cases cs with
      | nil => cases hcs
      | cons d ds => exact hescape d ds rfl rfl
    rw [List.cons_append, takePieces?.eq_5 _ _ hquote
      (fun _ _ _ _ _ hc _ => hbackslash hc) fun _ _ hc _ => hbackslash hc, if_neg hcontrol]
    simp only [ih hcs, Option.bind_eq_bind, Option.bind_some]

theorem takeText?_append {t : Option String} (h : takeText? cs = some (t, rest)) :
    takeText? (cs ++ more) = some (t, rest ++ more) := by
  obtain ⟨⟨pieces, cs'⟩, hpieces, heq⟩ := Option.bind_eq_some_iff.mp h
  cases heq
  rw [takeText?, takePieces?_append hpieces]
  rfl

/-- Digits that something stands behind end there, whatever follows. -/
theorem takeDigits?_more {ds : List Char} (h : takeDigits? cs = some (ds, rest)) (hne : rest ≠ []) :
    takeDigits? (cs ++ more) = some (ds, rest ++ more) := by
  have hsplit : cs.dropWhile isDigit ≠ [] → (cs ++ more).takeWhile isDigit = cs.takeWhile isDigit ∧
      (cs ++ more).dropWhile isDigit = cs.dropWhile isDigit ++ more := by
    clear h
    induction cs with
    | nil => exact fun hno => absurd rfl hno
    | cons c cs ih =>
      intro hdrop
      by_cases hc : isDigit c = true
      · rw [List.dropWhile_cons_of_pos hc] at hdrop
        obtain ⟨htake, hdrop⟩ := ih hdrop
        simp only [List.cons_append, List.takeWhile_cons_of_pos hc, List.dropWhile_cons_of_pos hc,
          htake, hdrop, and_self]
      · simp only [List.cons_append, List.takeWhile_cons_of_neg hc, List.dropWhile_cons_of_neg hc,
          and_self]
  unfold takeDigits? at h ⊢
  cases hds : cs.takeWhile isDigit with
  | nil => simp [hds] at h
  | cons d ds' =>
    simp only [hds, Option.some.injEq, Prod.mk.injEq] at h
    obtain ⟨rfl, rfl⟩ := h
    obtain ⟨htake, hdrop⟩ := hsplit hne
    simp only [htake, hdrop, hds]

theorem takeWhole?_more {ds : List Char} (h : takeWhole? cs = some (ds, rest)) (hne : rest ≠ []) :
    takeWhole? (cs ++ more) = some (ds, rest ++ more) := by
  unfold takeWhole? at h ⊢
  cases hds : takeDigits? cs with
  | none => simp [hds] at h
  | some x =>
    obtain ⟨ds', rest'⟩ := x
    rw [hds] at h
    split at h
    · cases h
    · rename_i hzero
      cases h
      rw [takeDigits?_more hds hne]
      split
      · rename_i hno
        obtain ⟨rfl, -⟩ := Prod.mk.inj (Option.some.inj hno)
        exact absurd rfl (hzero _ _ _)
      · rfl

theorem takeFraction?_more {x : Option (List Char)} (h : takeFraction? cs = some (x, rest))
    (hne : rest ≠ []) : takeFraction? (cs ++ more) = some (x, rest ++ more) := by
  unfold takeFraction? at h
  split at h
  · rename_i cs
    obtain ⟨⟨ds, rest'⟩, hds, heq⟩ := Option.map_eq_some_iff.mp h
    cases heq
    rw [List.cons_append, takeFraction?, takeDigits?_more hds hne]
    rfl
  · rename_i hpoint
    cases h
    obtain ⟨c, cs, rfl⟩ := List.exists_cons_of_ne_nil hne
    rw [List.cons_append, takeFraction?.eq_2 _ fun cs' hno => ?_]
    exact hpoint cs (by rw [(List.cons.inj hno).1])

theorem takeExponent?_more {x : Option (Bool × List Char)} (h : takeExponent? cs = some (x, rest))
    (hne : rest ≠ []) : takeExponent? (cs ++ more) = some (x, rest ++ more) := by
  cases cs with
  | nil =>
    cases h
    exact absurd rfl hne
  | cons c cs =>
    rw [takeExponent?] at h
    rw [List.cons_append, takeExponent?]
    split at h <;> rename_i hc
    · obtain ⟨⟨ds, rest'⟩, hds, heq⟩ := Option.map_eq_some_iff.mp h
      cases heq
      have hsome : cs ≠ [] := by
        rintro rfl
        simp [takeSign, takeDigits?] at hds
      rw [if_pos hc, takeSign_append hsome, takeDigits?_more hds hne]
      rfl
    · cases h
      rw [if_neg hc]
      rfl

/-- A number that something stands behind ends there, whatever follows. -/
theorem Literal.take?_more {l : Literal} (h : Literal.take? cs = some (l, rest)) (hne : rest ≠ []) :
    Literal.take? (cs ++ more) = some (l, rest ++ more) := by
  obtain ⟨c, cs', rfl, -⟩ := head_of_literal h
  simp only [Literal.take?, Option.bind_eq_bind, Option.bind_eq_some_iff, Prod.exists,
    takeMinus_append (List.cons_ne_nil c cs')] at h ⊢
  obtain ⟨whole, cs₁, hwhole, fraction, cs₂, hfraction, exponent, cs₃, hexponent, hl⟩ := h
  cases hl
  have hne₂ : cs₂ ≠ [] := by
    rintro rfl
    cases hexponent
    exact hne rfl
  have hne₁ : cs₁ ≠ [] := by
    rintro rfl
    cases hfraction
    exact hne₂ rfl
  exact ⟨whole, _, takeWhole?_more hwhole hne₁, fraction, _, takeFraction?_more hfraction hne₂,
    exponent, _, takeExponent?_more hexponent hne, rfl⟩

theorem takeNumber?_more {json : Json} (h : takeNumber? cs = some (json, rest)) (hne : rest ≠ []) :
    takeNumber? (cs ++ more) = some (json, rest ++ more) := by
  obtain ⟨⟨l, cs'⟩, htake, heq⟩ := Option.bind_eq_some_iff.mp h
  cases heq
  rw [takeNumber?, Literal.take?_more htake hne]
  simp only [Option.bind_eq_bind, Option.bind_some, List.length_append, Nat.add_sub_add_right,
    List.take_append_of_le_length (Nat.sub_le _ _)]

/-! ### Documents -/

/-- The reader has seen the end of the value: something stands behind it, or it is an object. -/
def HasEnded (cs rest : List Char) : Prop := rest ≠ [] ∨ (skipSpace cs).head? = some '\x7b'

theorem HasEnded.of_skipSpace {c : Char} {tail : List Char} (h : skipSpace rest = c :: tail) :
    HasEnded cs rest := by
  refine .inl ?_
  rintro rfl
  cases h

/-- What readers have read up to its end, they read as well when more stands behind, with any
number of steps to go that is no smaller. -/
structure ReadsOn (fuel : Nat) : Prop where
  value : ∀ {fuel' cs json rest}, fuel ≤ fuel' → takeValue? fuel cs = some (json, rest) →
    HasEnded cs rest → ∀ more, takeValue? fuel' (cs ++ more) = some (json, rest ++ more)
  items : ∀ {fuel' cs items rest}, fuel ≤ fuel' → takeItems? fuel cs = some (items, rest) →
    ∀ more, takeItems? fuel' (cs ++ more) = some (items, rest ++ more)
  members : ∀ {fuel' cs members rest}, fuel ≤ fuel' → takeMembers? fuel cs = some (members, rest) →
    ∀ more, takeMembers? fuel' (cs ++ more) = some (members, rest ++ more)

theorem takeItems?_nil : takeItems? fuel [] = none := by
  cases fuel with
  | zero => rfl
  | succ fuel => cases fuel <;> rfl

theorem takeMembers?_nil : takeMembers? fuel [] = none := by
  cases fuel <;> rfl

theorem ReadsOn.value_succ {json : Json} (ih : ReadsOn fuel) (hfuel : fuel ≤ fuel')
    (h : takeValue? (fuel + 1) cs = some (json, rest)) (hended : HasEnded cs rest) :
    takeValue? (fuel' + 1) (cs ++ more) = some (json, rest ++ more) := by
  rw [takeValue?] at h
  cases hcs : skipSpace cs with
  | nil =>
    rw [hcs] at h
    cases h
  | cons c cs' =>
    rw [HasEnded, hcs] at hended
    rw [takeValue?, skipSpace_append hcs]
    rw [hcs] at h
    split at h
    · cases ‹c :: cs' = []›
    · cases ‹c :: cs' = _›
      obtain ⟨⟨t, cs''⟩, htext, heq⟩ := Option.map_eq_some_iff.mp h
      cases heq
      simp only [takeText?_append htext, Option.map_some]
    · cases ‹c :: cs' = _›
      cases htail : skipSpace cs' with
      | nil =>
        rw [htail] at h
        simp [takeItems?_nil] at h
      | cons d ds =>
        simp only [skipSpace_append htail]
        rw [htail] at h
        split at h
        · cases ‹d :: ds = _›
          cases h
          rfl
        · rename_i hopen
          obtain ⟨⟨items, cs''⟩, hitems, heq⟩ := Option.map_eq_some_iff.mp h
          cases heq
          have hd : d ≠ ']' := fun hno => hopen ds (by rw [hno])
          split
          · exact absurd (List.cons.inj ‹d :: (ds ++ more) = _›).1 hd
          · rw [← List.cons_append, ih.items hfuel hitems more, Option.map_some]
    · cases ‹c :: cs' = _›
      cases htail : skipSpace cs' with
      | nil =>
        rw [htail] at h
        simp [takeMembers?_nil] at h
      | cons d ds =>
        simp only [skipSpace_append htail]
        rw [htail] at h
        split at h
        · cases ‹d :: ds = _›
          cases h
          rfl
        · rename_i hopen
          obtain ⟨⟨members, cs''⟩, hmembers, heq⟩ := Option.map_eq_some_iff.mp h
          cases heq
          have hd : d ≠ '\x7d' := fun hno => hopen ds (by rw [hno])
          split
          · exact absurd (List.cons.inj ‹d :: (ds ++ more) = _›).1 hd
          · rw [← List.cons_append, ih.members hfuel hmembers more, Option.map_some]
    case h_5 | h_6 | h_7 =>
      cases ‹c :: cs' = _›
      obtain ⟨cs'', hword, heq⟩ := Option.map_eq_some_iff.mp h
      cases heq
      simp only [afterWord?_append hword, Option.map_some]
    · rename_i hquote hbracket hbrace hn ht hf
      have hrest : rest ≠ [] := hended.resolve_right fun hno =>
        hbrace cs' (by rw [Option.some.inj hno])
      have hnumber : takeNumber? (c :: (cs' ++ more)) = _ := takeNumber?_more h hrest
      split
      all_goals first
        | exact hnumber
        | (rename_i heq; cases heq)
      · exact absurd rfl (hquote _)
      · exact absurd rfl (hbracket _)
      · exact absurd rfl (hbrace _)
      · exact absurd rfl (hn _)
      · exact absurd rfl (ht _)
      · exact absurd rfl (hf _)

theorem ReadsOn.items_succ {items : List Json} (ih : ReadsOn fuel) (hfuel : fuel ≤ fuel')
    (h : takeItems? (fuel + 1) cs = some (items, rest)) :
    takeItems? (fuel' + 1) (cs ++ more) = some (items, rest ++ more) := by
  rw [takeItems?] at h
  cases hvalue : takeValue? fuel cs with
  | none =>
    rw [hvalue] at h
    cases h
  | some x =>
    obtain ⟨item, cs'⟩ := x
    rw [hvalue] at h
    dsimp only at h
    cases hcs : skipSpace cs' with
    | nil =>
      rw [hcs] at h
      cases h
    | cons c tail =>
      rw [takeItems?, ih.value hfuel hvalue (.of_skipSpace hcs) more]
      dsimp only
      rw [skipSpace_append hcs]
      rw [hcs] at h
      split at h
      · cases ‹c :: tail = _›
        cases h
        rfl
      · cases ‹c :: tail = _›
        obtain ⟨⟨others, cs''⟩, hothers, heq⟩ := Option.map_eq_some_iff.mp h
        cases heq
        simp only [ih.items hfuel hothers more, Option.map_some]
      · cases h

theorem ReadsOn.members_succ {members : List (Option String × Json)} (ih : ReadsOn fuel)
    (hfuel : fuel ≤ fuel') (h : takeMembers? (fuel + 1) cs = some (members, rest)) :
    takeMembers? (fuel' + 1) (cs ++ more) = some (members, rest ++ more) := by
  rw [takeMembers?] at h
  split at h
  case h_2 => cases h
  rename_i cs₁ hquote
  rw [takeMembers?, skipSpace_append hquote]
  cases hkey : takeText? cs₁ with
  | none =>
    rw [hkey] at h
    cases h
  | some x =>
    obtain ⟨key, cs₂⟩ := x
    rw [hkey] at h
    dsimp only at h
    split at h
    case h_2 => cases h
    rename_i cs₃ hcolon
    cases hvalue : takeValue? fuel cs₃ with
    | none =>
      rw [hvalue] at h
      cases h
    | some x =>
      obtain ⟨value, cs₄⟩ := x
      rw [hvalue] at h
      dsimp only at h
      split at h
      · rename_i hclose
        cases h
        simp only [takeText?_append hkey, skipSpace_append hcolon,
          ih.value hfuel hvalue (.of_skipSpace hclose), skipSpace_append hclose]
      · rename_i hcomma
        obtain ⟨⟨others, cs₅⟩, hothers, heq⟩ := Option.map_eq_some_iff.mp h
        cases heq
        simp only [takeText?_append hkey, skipSpace_append hcolon,
          ih.value hfuel hvalue (.of_skipSpace hcomma), skipSpace_append hcomma,
          ih.members hfuel hothers more, Option.map_some]
      · cases h

theorem readsOn (fuel : Nat) : ReadsOn fuel := by
  induction fuel with
  | zero => exact ⟨fun _ h => (by cases h), fun _ h => (by cases h), fun _ h => (by cases h)⟩
  | succ fuel ih =>
    refine ⟨fun {fuel'} _ _ _ hfuel h hended more => ?_, fun {fuel'} _ _ _ hfuel h more => ?_,
      fun {fuel'} _ _ _ hfuel h more => ?_⟩
    all_goals
      obtain ⟨n, rfl⟩ : ∃ n, fuel' = n + 1 := ⟨fuel' - 1, by omega⟩
    · exact ih.value_succ (by omega) h hended
    · exact ih.items_succ (by omega) h
    · exact ih.members_succ (by omega) h

/-- No beginning of a printed object is a document but the whole. -/
theorem eq_of_prefix_pretty {s : String} {json : Json} {members : List (Option String × Json)}
    (hsound : (Json.object members).isSound = true)
    (hfront : s.toList <+: (Json.object members).pretty.toList) (h : parse? s = some json) :
    s = (Json.object members).pretty := by
  obtain ⟨more, hmore⟩ := hfront
  have hpretty := takeValue?_pretty (.object members) 0
    (2 * (prettyChars 0 (.object members)).length + 2) [] hsound (by rintro c ⟨⟩) (by omega)
  rw [List.append_nil] at hpretty
  rw [pretty, String.toList_ofList] at hmore
  rw [parse?, parseChars?] at h
  cases htake : takeValue? (2 * s.toList.length + 2) s.toList with
  | none =>
    rw [htake] at h
    cases h
  | some x =>
    obtain ⟨found, rest⟩ := x
    -- the text has a beginning at all, and that is the brace
    have hhead : (skipSpace s.toList).head? = some '\x7b' := by
      cases hs : s.toList with
      | nil =>
        rw [hs] at htake
        cases htake
      | cons c cs =>
        rw [hs, prettyChars, List.cons_append] at hmore
        rw [(List.cons.inj hmore).1, skipSpace_of_not_isSpace (by decide), List.head?_cons]
    have hfuel : 2 * s.toList.length + 2 ≤ 2 * (prettyChars 0 (.object members)).length + 2 := by
      rw [← hmore, List.length_append]
      omega
    have hall := (readsOn _).value hfuel htake (.inr hhead) more
    rw [hmore, hpretty] at hall
    obtain ⟨-, hrest⟩ := Prod.mk.inj (Option.some.inj hall)
    obtain ⟨-, rfl⟩ := List.append_eq_nil_iff.mp hrest.symm
    rw [List.append_nil] at hmore
    rw [pretty, ← hmore, String.ofList_toList]

end Json

/-- The beginning of a stored unit is the unit or none at all. -/
theorem Artifact.eq_of_ofText?_prefix {a b : Artifact} {s : String} (ha : a.ComesBack)
    (hfront : s.toList <+: a.text.toList) (h : ofText? s = some b) : b = a := by
  obtain ⟨json, hjson, -⟩ := Option.bind_eq_some_iff.mp h
  have hsound := a.isSound_toJson
  have hread := a.ofText?_text
  rw [text, toJson_eq, Json.fields] at hfront hread
  rw [toJson_eq, Json.fields] at hsound
  rw [Json.eq_of_prefix_pretty hsound hfront hjson, hread, reread_of_comesBack ha] at h
  exact (Option.some.inj h).symm

/-- A unit whose writing was broken off is read as that unit, if it can be read. -/
theorem Artifact.eq_of_read_extract {a b : Artifact} {d : Disk} {p : Path} {k : Nat}
    (ha : a.ComesBack) (hp : d.read p = .ok ((Text.encode a.text).extract 0 k))
    (h : read d p = .ok b) : b = a := by
  unfold read Disk.readText at h
  simp only [hp, bind, Except.bind] at h
  split at h
  · cases h
  · rename_i s hs
    split at hs
    · rename_i s' hdecode
      cases hs
      split at h
      · rename_i a' ha'
        cases h
        exact eq_of_ofText?_prefix ha (Text.prefix_of_decode?_extract hdecode) ha'
      · cases h
    · cases hs

end LiveRules
