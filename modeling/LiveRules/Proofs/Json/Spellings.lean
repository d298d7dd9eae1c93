import LiveRules.Json.Printer
import LiveRules.Json.Record
import LiveRules.Proofs.Decimal.Digits

/-!
Stored numbers can be read. A finite number is spelled with digits, and with an exponent where it is
very large or small, and the reader takes this spelling apart again. What it makes of the pieces may
differ from the number in the last bit, but it is never beyond binary64.
-/

namespace LiveRules.Json

open LiveRules.Decimal

variable {ds : List Char} {n : Nat}

/-! ### Digits -/

/-- One or more digits. -/
structure AreDigits (ds : List Char) : Prop where
  ne_nil : ds ≠ []
  isDigit : ∀ c ∈ ds, isDigit c = true

theorem areDigits_of_all (hne : ds.isEmpty = false) (h : ds.all isDigit = true) :
    AreDigits ds :=
  ⟨fun hnil => by simp [hnil] at hne, List.all_eq_true.mp h⟩

theorem areDigits_zero : AreDigits ['0'] := areDigits_of_all rfl rfl

theorem areDigits_toDigits (n : Nat) : AreDigits (Nat.toDigits 10 n) :=
  ⟨Nat.toDigits_ne_nil, fun _ hc => Nat.isDigit_of_mem_toDigits (by decide) (by decide) hc⟩

/-- A positive number is not spelled with a zero in front. -/
theorem head?_toDigits_ne_zero (hn : 0 < n) : (Nat.toDigits 10 n).head? ≠ some '0' := by
  induction n using Nat.strongRecOn with
  | ind n ih =>
    by_cases hsmall : n < 10
    · rw [Nat.toDigits_of_lt_base hsmall]
      have hdigit : ∀ n < 10, 0 < n → n.digitChar ≠ '0' := by decide
      simpa using hdigit n hsmall hn
    · rw [Nat.toDigits_of_base_le (by decide) (by omega),
        List.head?_append_of_ne_nil _ Nat.toDigits_ne_nil]
      exact ih (n / 10) (by omega) (by omega)

theorem digitValue_lt {c : Char} (h : isDigit c = true) : digitValue c < 10 := by
  simp only [isDigit, Bool.and_eq_true, decide_eq_true_eq] at h
  have hle : c.toNat ≤ 57 := UInt32.le_iff_toNat_le.mp h.2
  show c.toNat - 48 < 10
  omega

theorem ofDigitChars_lt (h : ∀ c ∈ ds, isDigit c = true) (n : Nat) :
    Nat.ofDigitChars 10 ds n < (n + 1) * 10 ^ ds.length := by
  induction ds generalizing n with
  | nil => simp [Nat.ofDigitChars]
  | cons c ds ih =>
    have hc : c.toNat - '0'.toNat < 10 := digitValue_lt (h c List.mem_cons_self)
    rw [Nat.ofDigitChars_cons, List.length_cons, Nat.pow_succ', ← Nat.mul_assoc]
    refine (ih (fun c hc => h c (List.mem_cons_of_mem _ hc)) _).trans_le ?_
    exact Nat.mul_le_mul_right _ (by omega)

theorem ofDigitChars_mono {m : Nat} (h : n ≤ m) (ds : List Char) :
    Nat.ofDigitChars 10 ds n ≤ Nat.ofDigitChars 10 ds m := by
  rw [@Nat.ofDigitChars_eq_ofDigitChars_zero ds n, @Nat.ofDigitChars_eq_ofDigitChars_zero ds m]
  exact Nat.add_le_add_right (Nat.mul_le_mul_left _ h) _

/-- The digits that are not taken into the significand count as zeros. -/
theorem takeSignificand_spec (n taken : Nat) (ds : List Char) : ∃ m places left : Nat,
    takeSignificand n taken ds = (m, taken + places) ∧ places + left = ds.length ∧
      m * 10 ^ left ≤ Nat.ofDigitChars 10 ds n ∧
      (Nat.ofDigitChars 10 ds n < wordLimit → left = 0) := by
  induction ds generalizing n taken with
  | nil => exact ⟨n, 0, 0, rfl, rfl, by simp [Nat.ofDigitChars], fun _ => rfl⟩
  | cons c ds ih =>
    have hvalue : Nat.ofDigitChars 10 (c :: ds) n =
        Nat.ofDigitChars 10 ds (10 * n + digitValue c) := Nat.ofDigitChars_cons
    have hsplit := @Nat.ofDigitChars_eq_ofDigitChars_zero ds (10 * n + digitValue c)
    rw [takeSignificand, hvalue]
    by_cases hfits : 10 * n + digitValue c < wordLimit
    · rw [if_pos hfits]
      obtain ⟨m, places, left, htake, hlength, hle, hall⟩ := ih (10 * n + digitValue c) (taken + 1)
      refine ⟨m, places + 1, left, ?_, ?_, hle, hall⟩
      · rw [htake, Nat.add_assoc, Nat.add_comm 1]
      · rw [List.length_cons, ← hlength]
        omega
    · rw [if_neg hfits]
      have hlow : 10 * n + digitValue c ≤ 10 ^ ds.length * (10 * n + digitValue c) :=
        Nat.le_mul_of_pos_left _ (Nat.pow_pos (by decide))
      refine ⟨n, 0, ds.length + 1, rfl, Nat.zero_add _, ?_, fun hless => by omega⟩
      calc n * 10 ^ (ds.length + 1) = 10 ^ ds.length * (10 * n) := by rw [Nat.pow_succ]; ring
        _ ≤ 10 ^ ds.length * (10 * n + digitValue c) :=
          Nat.mul_le_mul_left _ (Nat.le_add_right _ _)
        _ ≤ Nat.ofDigitChars 10 ds (10 * n + digitValue c) := by omega

/-! ### Literals -/

/-- The text of a literal with these pieces; a positive exponent has its sign. -/
def Literal.spelled (l : Literal) : List Char :=
  (if l.negative then ['-'] else []) ++ (l.whole ++ (l.fraction.elim [] ('.' :: ·) ++
    l.exponent.elim [] fun e => 'e' :: (if e.1 then '-' else '+') :: e.2))

/-- Each piece has digits, and a zero stands alone in front of the point. -/
structure Literal.IsPlain (l : Literal) : Prop where
  whole : AreDigits l.whole
  zero : l.whole = ['0'] ∨ l.whole.head? ≠ some '0'
  fraction : ∀ ds ∈ l.fraction, AreDigits ds
  exponent : ∀ e ∈ l.exponent, AreDigits e.2

theorem takeDigits?_append_of_not_digit (rest : List Char) (h : AreDigits ds)
    (hrest : ∀ c ∈ rest.head?, isDigit c = false) : takeDigits? (ds ++ rest) = some (ds, rest) := by
  have hnone : rest.takeWhile isDigit = [] ∧ rest.dropWhile isDigit = rest := by
    cases rest with
    | nil => exact ⟨rfl, rfl⟩
    | cons c cs => simp [hrest c rfl]
  have hnil := h.ne_nil
  rw [takeDigits?, List.takeWhile_append_of_pos h.isDigit, List.dropWhile_append_of_pos h.isDigit,
    hnone.1, hnone.2, List.append_nil]
  split
  · contradiction
  · rfl

theorem takeWhole?_append_of_not_digit (rest : List Char) (h : AreDigits ds)
    (hzero : ds = ['0'] ∨ ds.head? ≠ some '0') (hrest : ∀ c ∈ rest.head?, isDigit c = false) :
    takeWhole? (ds ++ rest) = some (ds, rest) := by
  rw [takeWhole?, takeDigits?_append_of_not_digit rest h hrest]
  split
  · rename_i heq
    cases heq
    rcases hzero with hzero | hzero
    · cases hzero
    · exact absurd rfl hzero
  · rfl

theorem takeMinus_spelled (negative : Bool) (rest : List Char) (h : AreDigits ds) :
    takeMinus ((if negative then ['-'] else []) ++ (ds ++ rest)) = (negative, ds ++ rest) := by
  cases negative with
  | true => rfl
  | false =>
    obtain ⟨c, cs, rfl⟩ := List.exists_cons_of_ne_nil h.ne_nil
    have hc := h.isDigit c List.mem_cons_self
    show takeMinus (c :: (cs ++ rest)) = _
    rw [takeMinus]
    · rfl
    · rintro _ heq
      rw [(List.cons.inj heq).1] at hc
      cases hc

theorem Literal.take?_spelled {l : Literal} (h : l.IsPlain) :
    Literal.take? l.spelled = some (l, []) := by
  obtain ⟨negative, whole, fraction, exponent⟩ := l
  have hexponent : takeExponent? (exponent.elim [] fun e =>
      'e' :: (if e.1 then '-' else '+') :: e.2) = some (exponent, []) := by
    cases exponent with
    | none => rfl
    | some e =>
      obtain ⟨sign, ds⟩ := e
      have hdigits := takeDigits?_append_of_not_digit [] (h.exponent _ rfl)
        (by rintro _ ⟨⟩)
      rw [List.append_nil] at hdigits
      cases sign <;> simp [takeExponent?, takeSign, hdigits]
  have hfraction : takeFraction? (fraction.elim [] ('.' :: ·) ++ exponent.elim [] fun e =>
      'e' :: (if e.1 then '-' else '+') :: e.2) = some (fraction, exponent.elim [] fun e =>
      'e' :: (if e.1 then '-' else '+') :: e.2) := by
    cases fraction with
    | none => cases exponent <;> rfl
    | some ds =>
      have hdigits := takeDigits?_append_of_not_digit
        (exponent.elim [] fun e => 'e' :: (if e.1 then '-' else '+') :: e.2) (h.fraction _ rfl)
        (by cases exponent <;> rintro _ ⟨⟩; rfl)
      simp [takeFraction?, hdigits]
  have hwhole := takeWhole?_append_of_not_digit (fraction.elim [] ('.' :: ·) ++
      exponent.elim [] fun e => 'e' :: (if e.1 then '-' else '+') :: e.2) h.whole h.zero
    (by cases fraction <;> cases exponent <;> rintro _ ⟨⟩ <;> rfl)
  simp only [Literal.take?, Literal.spelled, takeMinus_spelled negative _ h.whole, hwhole, hfraction,
    hexponent, Option.bind_eq_bind, Option.bind_some]

theorem isSome_number?_spelled {l : Literal} (h : l.IsPlain) :
    (number? l.spelled).isSome = l.magnitude?.isSome := by
  rw [number?, Literal.take?_spelled h]
  exact Option.isSome_map

/-- The digits in front of the point are all taken where they are few, and then at least one of
those behind it. -/
theorem Literal.significand_spec {l : Literal} (h : l.IsPlain) (hshort : l.whole.length ≤ 17) :
    ∃ m places left : Nat, l.significand = (m, -(places : Int)) ∧
      places + left = (l.fraction.getD []).length ∧
      m * 10 ^ left ≤ Nat.ofDigitChars 10 (l.whole ++ l.fraction.getD []) 0 ∧
      (l.fraction.isSome = true → 0 < places) := by
  have hless := ofDigitChars_lt h.whole.isDigit 0
  have hlimit : 10 ^ l.whole.length ≤ 10 ^ 17 := Nat.pow_le_pow_right (by decide) hshort
  have hword : 10 * 10 ^ 17 < wordLimit := by decide
  rw [Nat.zero_add, Nat.one_mul] at hless
  obtain ⟨n, taken, left, htake, hlength, hle, hall⟩ := takeSignificand_spec 0 0 l.whole
  obtain rfl := hall (by omega)
  rw [Nat.pow_zero, Nat.mul_one] at hle
  rw [Nat.ofDigitChars_append]
  cases hfraction : l.fraction with
  | none =>
    refine ⟨n, 0, 0, ?_, rfl, ?_, by rintro ⟨⟩⟩
    · simp only [Literal.significand, htake, hfraction, Option.getD_none, takeSignificand]
      rw [← hlength, Nat.zero_add, Nat.add_zero, Nat.sub_self]
      rfl
    · exact (Nat.mul_one n).le.trans (ofDigitChars_mono hle [])
  | some ds =>
    have hds := h.fraction ds hfraction
    obtain ⟨c, ds, rfl⟩ := List.exists_cons_of_ne_nil hds.ne_nil
    have hc := digitValue_lt (hds.isDigit c List.mem_cons_self)
    obtain ⟨m, places, left, hnext, hsum, hvalue, -⟩ :=
      takeSignificand_spec (10 * n + digitValue c) 1 ds
    refine ⟨m, 1 + places, left, ?_, ?_, hvalue.trans (ofDigitChars_mono hle (c :: ds)), fun _ => by omega⟩
    · simp only [Literal.significand, htake, hfraction, Option.getD_some, takeSignificand,
        if_pos (show 10 * n + digitValue c < wordLimit by omega), hnext]
      rw [← hlength, Nat.zero_add, Nat.add_zero, Nat.sub_self]
      simp
    · rw [Option.getD_some, List.length_cons, ← hsum]
      omega

/-! ### Magnitudes -/

theorem isSome_scaled?_of_neg {m : Nat} {e : Int} (he : e < 0) : (scaled? m e).isSome = true := by
  rw [scaled?, if_neg (by omega)]
  rfl

/-- A number with a point and without an exponent is never too large. -/
theorem Literal.isSome_magnitude?_of_pointed {l : Literal} (h : l.IsPlain)
    (hshort : l.whole.length ≤ 17) (hfraction : l.fraction.isSome = true)
    (hexponent : l.exponent = none) : l.magnitude?.isSome = true := by
  obtain ⟨m, places, left, hsignificand, -, -, hpoint⟩ := significand_spec h hshort
  have hplaces := hpoint hfraction
  simp only [magnitude?, hsignificand, hexponent]
  rw [if_neg (by omega)]
  exact isSome_scaled?_of_neg (by omega)

/-- A number with an exponent is within reach when its digits are. -/
theorem Literal.isSome_magnitude?_of_scientific {l : Literal} {d : Digits} {p : Int}
    (h : l.IsPlain) (hwhole : l.whole.length = 1)
    (hdigits : Nat.toDigits 10 d.coefficient = l.whole ++ l.fraction.getD [])
    (hexponent : l.exponent = some (decide (p < 0), Nat.toDigits 10 p.natAbs))
    (hp : p = d.exponent + (l.fraction.getD []).length) (hpos : 0 < d.coefficient)
    (hd : d.WithinReach) : l.magnitude?.isSome = true := by
  obtain ⟨m, places, left, hsignificand, hsum, hle, -⟩ := significand_spec h (by omega)
  have hvalue : valueOf (Nat.toDigits 10 p.natAbs) = p.natAbs := Nat.ofDigitChars_ten_toDigits
  rw [← hdigits, Nat.ofDigitChars_ten_toDigits] at hle
  simp only [magnitude?, hsignificand, hexponent, hvalue]
  by_cases hneg : p < 0
  · simp only [hneg, decide_true, Bool.not_true, Bool.false_eq_true, and_false, if_false, if_true]
    split
    · rfl
    · exact isSome_scaled?_of_neg (by omega)
  · -- the exponent is that of the first digit, and so is small
    have hfirst : 10 ^ (l.fraction.getD []).length ≤ d.coefficient := by
      rcases Nat.eq_zero_or_pos (l.fraction.getD []).length with hzero | hmore
      · rw [hzero]
        exact hpos
      · by_contra hless
        have hlength := congrArg List.length hdigits
        rw [List.length_append, hwhole] at hlength
        have := (Nat.length_toDigits_le_iff (by decide) hmore).mpr (Nat.lt_of_not_le hless)
        omega
    have hsmall := hd.le_of_le hfirst
    have hlimit : 308 < exponentLimit := by decide
    simp only [hneg, decide_false, Bool.false_eq_true, if_false]
    rw [if_neg (by omega)]
    by_cases hsmaller : -(places : Int) + p.natAbs < 0
    · exact isSome_scaled?_of_neg hsmaller
    · have hreach := hd.isSome_multiplied? hle (by omega)
      rw [scaled?, if_pos (by omega)]
      rwa [show d.exponent + left = -(places : Int) + p.natAbs by omega] at hreach

/-! ### Spellings -/

theorem areDigits_zeros_append (n : Nat) (h : AreDigits ds) : AreDigits (zeros n ++ ds) := by
  refine ⟨List.append_ne_nil_of_right_ne_nil _ h.ne_nil, fun c hc => ?_⟩
  rcases List.mem_append.mp hc with hzero | hc
  · rw [List.eq_of_mem_replicate hzero]
    rfl
  · exact h.isDigit c hc

theorem areDigits_append_zeros (h : AreDigits ds) (n : Nat) : AreDigits (ds ++ zeros n) := by
  refine ⟨List.append_ne_nil_of_left_ne_nil h.ne_nil _, fun c hc => ?_⟩
  rcases List.mem_append.mp hc with hc | hzero
  · exact h.isDigit c hc
  · rw [List.eq_of_mem_replicate hzero]
    rfl

theorem areDigits_take (h : AreDigits ds) (hn : 0 < n) : AreDigits (ds.take n) :=
  ⟨by simpa [Nat.pos_iff_ne_zero.mp hn] using h.ne_nil,
    fun c hc => h.isDigit c (List.mem_of_mem_take hc)⟩

theorem areDigits_drop (h : AreDigits ds) (hn : n < ds.length) : AreDigits (ds.drop n) :=
  ⟨by simpa using hn, fun c hc => h.isDigit c (List.mem_of_mem_drop hc)⟩

/-- Digits with a point among, in front of or behind them. -/
theorem exists_literal_of_placePoint (negative : Bool) (h : AreDigits ds)
    (hzero : ds.head? ≠ some '0') {place : Int} (hplace : place ≤ 17) :
    ∃ l : Literal, (if negative then ['-'] else []) ++ placePoint stored ds place = l.spelled ∧
      l.IsPlain ∧ l.magnitude?.isSome = true := by
  have hexponent : ∀ e ∈ (none : Option (Bool × List Char)), AreDigits e.2 := by
    rintro _ ⟨⟩
  have hreads (whole fraction : List Char) (hwhole : AreDigits whole)
      (halone : whole = ['0'] ∨ whole.head? ≠ some '0') (hfraction : AreDigits fraction)
      (hshort : whole.length ≤ 17) (htext : placePoint stored ds place = whole ++ '.' :: fraction) :
      ∃ l : Literal, (if negative then ['-'] else []) ++ placePoint stored ds place = l.spelled ∧
        l.IsPlain ∧ l.magnitude?.isSome = true := by
    have hplain : Literal.IsPlain ⟨negative, whole, some fraction, none⟩ :=
      ⟨hwhole, halone, by rintro _ ⟨⟩; exact hfraction, hexponent⟩
    refine ⟨_, ?_, hplain, Literal.isSome_magnitude?_of_pointed hplain hshort rfl rfl⟩
    rw [htext]
    simp [Literal.spelled]
  by_cases hbelow : place ≤ 0
  · refine hreads ['0'] _ areDigits_zero (.inl rfl)
      (areDigits_zeros_append place.natAbs h) (by decide) ?_
    rw [placePoint, if_pos hbelow]
    rfl
  by_cases habove : ds.length ≤ place.natAbs
  · refine hreads _ ['0'] (areDigits_append_zeros h (place.natAbs - ds.length)) (.inr ?_)
      areDigits_zero ?_ ?_
    · rwa [List.head?_append_of_ne_nil _ h.ne_nil]
    · rw [List.length_append, zeros, List.length_replicate]
      omega
    · rw [placePoint, if_neg hbelow, if_pos habove]
      rfl
  · refine hreads _ _ (areDigits_take (n := place.natAbs) h (by omega)) (.inr ?_)
      (areDigits_drop (n := place.natAbs) h (by omega)) ?_ ?_
    · rwa [List.head?_take, if_neg (by omega)]
    · rw [List.length_take]
      omega
    · rw [placePoint, if_neg hbelow, if_neg habove]

theorem exists_literal_of_scientific (negative : Bool) {d : Digits} (hpos : 0 < d.coefficient)
    (hd : d.WithinReach) : ∃ l : Literal, (if negative then ['-'] else []) ++
        scientific stored (Nat.toDigits 10 d.coefficient)
          (d.exponent + (Nat.toDigits 10 d.coefficient).length - 1) = l.spelled ∧
      l.IsPlain ∧ l.magnitude?.isSome = true := by
  have h := areDigits_toDigits d.coefficient
  have hzero := head?_toDigits_ne_zero hpos
  obtain ⟨c, cs, hdigits⟩ := List.exists_cons_of_ne_nil h.ne_nil
  rw [hdigits] at h hzero ⊢
  obtain ⟨p, hp⟩ : ∃ p : Int, p = d.exponent + cs.length := ⟨_, rfl⟩
  rw [show d.exponent + (c :: cs).length - 1 = p by rw [hp, List.length_cons]; omega]
  have hreads (fraction : Option (List Char)) (hfraction : ∀ ds ∈ fraction, AreDigits ds)
      (hcs : fraction.getD [] = cs) (htext : (if (c :: cs).length ≤ 1 then [] else '.' :: cs) =
        fraction.elim [] ('.' :: ·)) :
      ∃ l : Literal, (if negative then ['-'] else []) ++ scientific stored (c :: cs) p = l.spelled ∧
        l.IsPlain ∧ l.magnitude?.isSome = true := by
    have hplain : Literal.IsPlain
        ⟨negative, [c], fraction, some (decide (p < 0), Nat.toDigits 10 p.natAbs)⟩ := by
      refine ⟨⟨by simp, ?_⟩, .inr hzero, hfraction, ?_⟩
      · simpa using h.isDigit c List.mem_cons_self
      · rintro _ ⟨⟩
        exact areDigits_toDigits p.natAbs
    refine ⟨_, ?_, hplain, ?_⟩
    · simp only [scientific, Literal.spelled, List.drop_succ_cons, List.drop_zero, htext]
      by_cases hneg : p < 0 <;> simp [hneg, stored]
    · refine Literal.isSome_magnitude?_of_scientific hplain rfl ?_ rfl ?_ hpos hd
      · rw [hdigits, hcs]
        rfl
      · rw [hcs, hp]
  cases cs with
  | nil => exact hreads none (by rintro _ ⟨⟩) rfl rfl
  | cons c' cs =>
    refine hreads (some (c' :: cs)) ?_ rfl ?_
    · rintro _ ⟨⟩
      exact areDigits_drop (n := 1) h (by simp)
    · simp

/-- The last of all numbers is read, although its digits are beyond what products reach in
general. -/
theorem exists_literal_of_last (negative : Bool) : ∃ l : Literal,
    (if negative then ['-'] else []) ++ stored.magnitude ⟨2 ^ 53 - 1, 971⟩ = l.spelled ∧
      l.IsPlain ∧ l.magnitude?.isSome = true := by
  have hshortest : shortest stored.tie ⟨2 ^ 53 - 1, 971⟩ = ⟨17976931348623157, 292⟩ := shortest_last
  have htext : stored.magnitude ⟨2 ^ 53 - 1, 971⟩ = "1.7976931348623157e+308".toList := by
    rw [Layout.magnitude, if_neg (by decide), hshortest]
    decide +kernel
  have hone : AreDigits ['1'] := areDigits_of_all rfl rfl
  have hfirst : ['1'].head? ≠ some '0' := by decide
  refine ⟨⟨negative, ['1'], some "7976931348623157".toList, some (false, "308".toList)⟩, ?_,
    ⟨hone, .inr hfirst, ?_, ?_⟩, ?_⟩
  · rw [htext]
    cases negative <;> rfl
  · rintro _ ⟨⟩
    exact areDigits_of_all rfl rfl
  · rintro _ ⟨⟩
    exact areDigits_of_all rfl rfl
  · cases negative <;> decide +kernel

theorem exists_literal (negative : Bool) {b : Binary} (hm : b.mantissa < 2 ^ 53)
    (hb : b.exponent ≤ 971) (hlarge : b.exponent = 971 → 2 ^ 52 ≤ b.mantissa) : ∃ l : Literal,
      (if negative then ['-'] else []) ++ stored.magnitude b = l.spelled ∧
        l.IsPlain ∧ l.magnitude?.isSome = true := by
  by_cases hlast : b = ⟨2 ^ 53 - 1, 971⟩
  · rw [hlast]
    exact exists_literal_of_last negative
  rcases Nat.eq_zero_or_pos b.mantissa with hzero | hpos
  · refine ⟨⟨negative, ['0'], some ['0'], none⟩, ?_, ⟨areDigits_zero, .inl rfl, ?_, ?_⟩, rfl⟩
    · rw [Layout.magnitude, if_pos hzero]
      rfl
    · rintro _ ⟨⟩
      exact areDigits_zero
    · rintro _ ⟨⟩
  · obtain ⟨hcoefficient, hreach⟩ := withinReach_shortest (t := .even) hpos hm hb hlarge hlast
    obtain ⟨place, hplace⟩ : ∃ place : Int, place = (shortest .even b).exponent +
      (Nat.toDigits 10 (shortest .even b).coefficient).length := ⟨_, rfl⟩
    have htext : stored.magnitude b = if -5 ≤ place - 1 ∧ place - 1 ≤ 15 then
        placePoint stored (Nat.toDigits 10 (shortest .even b).coefficient) place
        else scientific stored (Nat.toDigits 10 (shortest .even b).coefficient) (place - 1) := by
      rw [Layout.magnitude, if_neg hpos.ne', hplace]
      rfl
    rw [htext]
    by_cases hnear : -5 ≤ place - 1 ∧ place - 1 ≤ 15
    · rw [if_pos hnear]
      exact exists_literal_of_placePoint negative (areDigits_toDigits _)
        (head?_toDigits_ne_zero hcoefficient) (by omega)
    · rw [if_neg hnear, hplace]
      exact exists_literal_of_scientific negative hcoefficient hreach

/-! ### Finite numbers -/

variable {x : Float}

theorem not_isNaN_isInf_of_isFinite (h : x.isFinite = true) :
    x.isNaN = false ∧ x.isInf = false := by
  unfold Float.isFinite Float.Model.isFinite Float.Model.UnpackedFloat.isFinite at h
  unfold Float.isNaN Float.isInf Float.Model.isNaN Float.Model.isInf
    Float.Model.UnpackedFloat.isNaN Float.Model.UnpackedFloat.isInf
  cases hx : x.toModel.unpack with
  | notANumber | infinity =>
    rw [hx] at h
    cases h
  | zero | finite => exact ⟨rfl, rfl⟩

/-- The exponent field of a finite number has a bit that is not set. -/
theorem field_le_of_isFinite (h : x.isFinite = true) :
    ((x.toBits >>> 52) &&& 0x7FF).toNat ≤ 2046 := by
  have hmod : ((x.toBits >>> 52) &&& 0x7FF).toNat = x.toBits.toNat >>> 52 % 2 ^ 11 := by
    rw [UInt64.toNat_and, UInt64.toNat_shiftRight]
    exact Nat.and_two_pow_sub_one_eq_mod _ 11
  by_contra hlarge
  have hbits : x.toBits.toNat >>> 52 % 2 ^ 11 = 2047 := by
    have := Nat.mod_lt (x.toBits.toNat >>> 52) (show 0 < 2 ^ 11 by decide)
    omega
  have hfield : @Float.Model.UnpackedFloat.unpackExponent .binary64
      x.toModel.toBits.toBitVec = -1#11 := by
    apply BitVec.eq_of_toNat_eq
    rw [Float.Model.UnpackedFloat.unpackExponent, BitVec.toNat_cast, BitVec.extractLsb_toNat]
    exact hbits
  unfold Float.isFinite Float.Model.isFinite Float.Model.unpack at h
  delta Float.Model.UnpackedFloat.unpack at h
  dsimp only at h
  rw [if_pos hfield] at h
  split at h <;> cases h

theorem ofBits_of_isFinite (h : x.isFinite = true) : (Binary.ofBits x.toBits).mantissa < 2 ^ 53 ∧
    (Binary.ofBits x.toBits).exponent ≤ 971 ∧
    ((Binary.ofBits x.toBits).exponent = 971 → 2 ^ 52 ≤ (Binary.ofBits x.toBits).mantissa) := by
  have hfraction : (x.toBits &&& 0xFFFFFFFFFFFFF).toNat < 2 ^ 52 := by
    rw [UInt64.toNat_and]
    exact Nat.and_lt_two_pow _ (by decide)
  have hfield := field_le_of_isFinite h
  rw [Binary.ofBits]
  split
  · dsimp only
    exact ⟨by omega, by omega, by omega⟩
  · dsimp only [Nat.pow_eq]
    exact ⟨by omega, by omega, fun _ => Nat.le_add_left _ _⟩

/-- A finite number is stored as a number that can be read. -/
theorem isSome_float?_float (h : x.isFinite = true) : (float? (float x)).isSome = true := by
  obtain ⟨hnan, hinf⟩ := not_isNaN_isInf_of_isFinite h
  obtain ⟨hm, hb, hlarge⟩ := ofBits_of_isFinite h
  obtain ⟨l, htext, hplain, hvalue⟩ := exists_literal (isNegative x) hm hb hlarge
  rw [float, if_pos h, float?, Layout.write, hnan, hinf]
  simp only [Bool.false_eq_true, if_false, String.toList_ofList]
  rw [htext, isSome_number?_spelled hplain, hvalue]

end LiveRules.Json
