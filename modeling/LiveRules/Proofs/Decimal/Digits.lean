import LiveRules.Proofs.Decimal.Rounding

/-!
The size of the shortest digits. Digits that stand for a number lie in its interval, so they exceed
the number by at most half a unit in its last place; and no digit is left that the interval allows
to leave out.
-/

namespace LiveRules.Decimal

variable {i : Interval} {t : Tie} {m n k : Nat} {b : Binary}

/-! ### Intervals -/

theorem Interval.le_high (h : i.holds n = true) : n ≤ i.high := by
  unfold Interval.holds at h
  split at h <;> simp only [Bool.and_eq_true, decide_eq_true_eq] at h <;> omega

/-- A neighbour on a coarser grid lies in the interval. -/
theorem Interval.neighbour?_spec (h : i.neighbour? t k = some n) :
    0 < n ∧ n * 10 ^ k ≤ i.high := by
  simp only [Interval.neighbour?] at h
  split at h
  · rename_i habove
    cases h
    simp only [Bool.and_eq_true] at habove
    exact ⟨Nat.succ_pos _, Interval.le_high habove.1⟩
  · split at h
    · rename_i hbelow
      cases h
      simp only [Bool.and_eq_true, decide_eq_true_eq] at hbelow
      exact ⟨hbelow.1, Interval.le_high hbelow.2⟩
    · cases h

/-- Where the grid is finer than the interval is wide, there is a neighbour. -/
theorem Interval.isSome_neighbour? (hvalue : i.low < i.value ∧ i.value < i.high)
    (hwide : 10 ^ k < i.high - i.low) (hlong : 10 ^ k ≤ i.value) :
    (i.neighbour? t k).isSome = true := by
  have hdiv := Nat.div_add_mod i.value (10 ^ k)
  have hmod := Nat.mod_lt i.value (Nat.pow_pos (n := k) (show 0 < 10 by decide))
  have hpos : 0 < i.value / 10 ^ k := Nat.div_pos hlong (Nat.pow_pos (by decide))
  have hfits : i.holds (i.value / 10 ^ k * 10 ^ k) = true ∨
      i.holds ((i.value / 10 ^ k + 1) * 10 ^ k) = true := by
    rw [Nat.add_mul, Nat.one_mul, Nat.mul_comm]
    unfold Interval.holds
    split <;> simp only [Bool.and_eq_true, decide_eq_true_eq] <;> omega
  simp only [Interval.neighbour?]
  split
  · rfl
  · rename_i habove
    split
    · rfl
    · rename_i hbelow
      simp only [Nat.pow_eq] at habove hbelow
      simp only [hpos, decide_true, Bool.true_and, Bool.not_eq_true] at hbelow
      rw [hbelow] at hfits
      have hup := hfits.resolve_left (by decide)
      rw [hup, hbelow] at habove
      simp at habove

/-! ### Shortening -/

/-- Digits that are shortened stay in the interval, and lose every digit that can be left out. -/
theorem Interval.shorten_spec (hpos : 0 < i.value) (hvalue : i.value ≤ i.high) (k : Nat) :
    ∃ j : Nat, (i.shorten t k).exponent = i.exponent + j ∧
      0 < (i.shorten t k).coefficient ∧ (i.shorten t k).coefficient * 10 ^ j ≤ i.high ∧
      ∀ l ≤ k, (i.neighbour? t l).isSome = true → l ≤ j := by
  induction k with
  | zero =>
    refine ⟨0, by simp [shorten], hpos, by simpa [shorten] using hvalue, fun l hl _ => hl⟩
  | succ k ih =>
    rw [shorten]
    cases hnext : i.neighbour? t (k + 1) with
    | some n =>
      obtain ⟨hn, hle⟩ := neighbour?_spec hnext
      exact ⟨k + 1, rfl, hn, hle, fun l hl _ => hl⟩
    | none =>
      obtain ⟨j, hexponent, hcoefficient, hle, hmost⟩ := ih
      refine ⟨j, hexponent, hcoefficient, hle, fun l hl hsome => ?_⟩
      rcases Nat.lt_or_eq_of_le hl with hless | rfl
      · exact hmost l (Nat.le_of_lt_succ hless) hsome
      · rw [hnext] at hsome
        cases hsome

/-- Moving zeros to the exponent changes nothing in the number. -/
theorem Digits.normal_spec (d : Digits) : ∃ j : Nat, d.normal.exponent = d.exponent + j ∧
    d.normal.coefficient * 10 ^ j = d.coefficient := by
  induction d using Digits.normal.induct with
  | case1 d h ih =>
    obtain ⟨j, hexponent, hcoefficient⟩ := ih
    rw [Digits.normal, dif_pos h]
    refine ⟨j + 1, ?_, ?_⟩
    · rw [hexponent]
      push_cast
      omega
    · rw [Nat.pow_succ, ← Nat.mul_assoc, hcoefficient]
      dsimp only
      omega
  | case2 d h =>
    rw [Digits.normal, dif_neg h]
    exact ⟨0, by simp, by simp⟩

theorem shortest_spec (hhigh : (Interval.around b).value ≤ (Interval.around b).high)
    (hpos : 0 < (Interval.around b).value) : ∃ j : Nat,
      (shortest t b).exponent = (Interval.around b).exponent + j ∧
      0 < (shortest t b).coefficient ∧
      (shortest t b).coefficient * 10 ^ j ≤ (Interval.around b).high ∧
      ∀ l ≤ digitCount (Interval.around b).value,
        ((Interval.around b).neighbour? t l).isSome = true → l ≤ j := by
  rw [shortest]
  obtain ⟨j, hexponent, hcoefficient, hle, hmost⟩ := Interval.shorten_spec (t := t) hpos hhigh
    (digitCount (Interval.around b).value)
  generalize (Interval.around b).shorten t (digitCount (Interval.around b).value) = d at *
  obtain ⟨more, hnormal, hsame⟩ := d.normal_spec
  refine ⟨j + more, ?_, Nat.pos_of_ne_zero fun hno => ?_, ?_, fun l hl hsome => ?_⟩
  · rw [hnormal, hexponent]
    push_cast
    omega
  · rw [hno, Nat.zero_mul] at hsame
    omega
  · rw [Nat.add_comm, Nat.pow_add, ← Nat.mul_assoc, hsame]
    exact hle
  · exact (hmost l hl hsome).trans (Nat.le_add_right j more)

/-! ### Bounds -/

/-- Digits that stand for a number up to a bound. -/
def Digits.AtMost (d : Digits) (bound : Nat) : Prop :=
  d.coefficient * 10 ^ d.exponent.toNat ≤ bound * 10 ^ (-d.exponent).toNat

/-- The grid of a number without a fraction is that of the natural numbers. -/
theorem around_of_two_le (h : 2 ≤ b.exponent) : ∃ s : Nat, (s : Int) = b.exponent - 2 ∧
    (Interval.around b).exponent = 0 ∧ (Interval.around b).value = 4 * b.mantissa * 2 ^ s ∧
    (Interval.around b).high = (4 * b.mantissa + 2) * 2 ^ s ∧
    (4 * b.mantissa - 2) * 2 ^ s ≤ (Interval.around b).low ∧
    (Interval.around b).low ≤ (4 * b.mantissa - 1) * 2 ^ s := by
  obtain ⟨s, hs⟩ : ∃ s : Nat, (s : Int) = b.exponent - 2 := ⟨(b.exponent - 2).toNat, by omega⟩
  refine ⟨s, hs, ?_⟩
  unfold Interval.around
  dsimp only
  rw [← hs, if_neg (by omega), Int.natAbs_natCast]
  refine ⟨by omega, rfl, rfl, ?_, ?_⟩
  all_goals
    refine Nat.mul_le_mul_right _ ?_
    split <;> omega

theorem around_of_lt_two (h : b.exponent < 2) : ∃ s : Nat, (s : Int) = 2 - b.exponent ∧
    (Interval.around b).exponent = -s ∧ (Interval.around b).value = 4 * b.mantissa * 5 ^ s ∧
    (Interval.around b).high = (4 * b.mantissa + 2) * 5 ^ s := by
  obtain ⟨s, hs⟩ : ∃ s : Nat, (s : Int) = 2 - b.exponent := ⟨(2 - b.exponent).toNat, by omega⟩
  refine ⟨s, hs, ?_⟩
  unfold Interval.around
  dsimp only
  rw [if_pos (by omega), show (b.exponent - 2).natAbs = s by omega]
  exact ⟨by omega, rfl, rfl⟩

/-- The shortest digits of a number that is not among the largest. -/
theorem atMost_half (hpos : 0 < b.mantissa) (hm : b.mantissa < 2 ^ 53) (hb : b.exponent ≤ 970) :
    0 < (shortest t b).coefficient ∧ (shortest t b).AtMost half := by
  have hmost : 4 * b.mantissa + 2 ≤ 2 ^ 55 := by omega
  by_cases hwhole : 2 ≤ b.exponent
  · obtain ⟨s, hs, hgrid, hvalue, hhigh, -⟩ := around_of_two_le hwhole
    obtain ⟨j, hexponent, hcoefficient, hle, -⟩ := shortest_spec (t := t) (b := b)
      (by rw [hvalue, hhigh]; exact Nat.mul_le_mul_right _ (by omega))
      (by rw [hvalue]; exact Nat.mul_pos (by omega) (Nat.two_pow_pos s))
    refine ⟨hcoefficient, ?_⟩
    rw [hgrid, Int.zero_add] at hexponent
    rw [Digits.AtMost, hexponent, Int.toNat_natCast, show (-(j : Int)).toNat = 0 by omega,
      Nat.pow_zero, Nat.mul_one]
    calc (shortest t b).coefficient * 10 ^ j ≤ (4 * b.mantissa + 2) * 2 ^ s := hhigh ▸ hle
      _ ≤ 2 ^ 55 * 2 ^ s := Nat.mul_le_mul_right _ hmost
      _ = 2 ^ (55 + s) := (Nat.pow_add 2 55 s).symm
      _ ≤ half := two_pow_le_half (by omega)
  · obtain ⟨s, hs, hgrid, hvalue, hhigh⟩ := around_of_lt_two (b := b) (by omega)
    have hfive : 0 < 5 ^ s := Nat.pow_pos (by decide)
    obtain ⟨j, hexponent, hcoefficient, hle, -⟩ := shortest_spec (t := t) (b := b)
      (by rw [hvalue, hhigh]; exact Nat.mul_le_mul_right _ (by omega))
      (by rw [hvalue]; exact Nat.mul_pos (by omega) hfive)
    refine ⟨hcoefficient, ?_⟩
    -- on the grid the number is its magnitude times a power of five, and of ten at most
    have hbound : (shortest t b).coefficient * 10 ^ j ≤ half * 10 ^ s := by
      calc (shortest t b).coefficient * 10 ^ j ≤ (4 * b.mantissa + 2) * 5 ^ s := hhigh ▸ hle
        _ ≤ 2 ^ 55 * 10 ^ s := Nat.mul_le_mul hmost (Nat.pow_le_pow_left (by decide) s)
        _ ≤ half * 10 ^ s := Nat.mul_le_mul_right _ (two_pow_le_half (by decide : 55 < 1024))
    rw [Digits.AtMost, hexponent, hgrid]
    rcases Nat.le_total s j with hsj | hjs
    · obtain ⟨l, rfl⟩ := Nat.exists_eq_add_of_le hsj
      rw [show (-(s : Int) + (s + l : Nat)).toNat = l by omega,
        show (-(-(s : Int) + (s + l : Nat))).toNat = 0 by omega, Nat.pow_zero, Nat.mul_one]
      refine Nat.le_of_mul_le_mul_right (c := 10 ^ s) ?_ (Nat.pow_pos (by decide))
      rwa [Nat.mul_assoc, ← Nat.pow_add, Nat.add_comm l]
    · obtain ⟨l, rfl⟩ := Nat.exists_eq_add_of_le hjs
      rw [show (-((j + l : Nat) : Int) + j).toNat = 0 by omega,
        show (-(-((j + l : Nat) : Int) + j)).toNat = l by omega, Nat.pow_zero, Nat.mul_one]
      refine Nat.le_of_mul_le_mul_right (c := 10 ^ j) ?_ (Nat.pow_pos (by decide))
      rwa [Nat.mul_assoc, ← Nat.pow_add, Nat.add_comm l]

/-- The numbers that round to one of the largest are further apart than this power of ten. -/
theorem ten_pow_lt_width : ∀ s, s = 969 → 10 ^ 292 < 3 * 2 ^ s := by
  rintro _ rfl
  decide +kernel

/-- The shortest digits of the largest numbers, the last of all left out. -/
theorem atMost_ceiling (hlow : 2 ^ 52 ≤ b.mantissa) (hm : b.mantissa ≤ 2 ^ 53 - 2)
    (hb : b.exponent = 971) : 0 < (shortest t b).coefficient ∧
      (shortest t b).AtMost ceiling ∧ 292 ≤ (shortest t b).exponent := by
  obtain ⟨s, hs, hgrid, hvalue, hhigh, -, hmost⟩ := around_of_two_le (b := b) (by omega)
  have hunit : 0 < 2 ^ s := Nat.two_pow_pos s
  have hwidth := ten_pow_lt_width s (by omega)
  have hlarge : 10 ^ 292 < (Interval.around b).value := by
    rw [hvalue]
    exact hwidth.trans_le (Nat.mul_le_mul_right _ (by omega))
  have habove : (Interval.around b).value + 2 * 2 ^ s = (Interval.around b).high := by
    rw [hvalue, hhigh, Nat.add_mul]
  have hbelow : (Interval.around b).low + 2 ^ s ≤ (Interval.around b).value := by
    rw [hvalue]
    calc _ ≤ (4 * b.mantissa - 1) * 2 ^ s + 2 ^ s := Nat.add_le_add_right hmost _
      _ = (4 * b.mantissa - 1 + 1) * 2 ^ s := (Nat.succ_mul _ _).symm
      _ = 4 * b.mantissa * 2 ^ s := by rw [Nat.sub_add_cancel (by omega)]
  obtain ⟨j, hexponent, hcoefficient, hle, hshort⟩ := shortest_spec (t := t) (b := b)
    (by omega) (by omega)
  have hneighbour := Interval.isSome_neighbour? (i := Interval.around b) (t := t) (k := 292)
    (by omega) (by omega) hlarge.le
  have hdigits : 292 ≤ digitCount (Interval.around b).value := by
    by_contra hno
    have hless := (Nat.length_toDigits_le_iff (k := 292) (by decide) (by decide)).mp
      (show (Nat.toDigits 10 (Interval.around b).value).length ≤ 292 from by
        rw [digitCount] at hno; omega)
    omega
  rw [hgrid, Int.zero_add] at hexponent
  refine ⟨hcoefficient, ?_, ?_⟩
  · rw [Digits.AtMost, hexponent, Int.toNat_natCast, show (-(j : Int)).toNat = 0 by omega,
      Nat.pow_zero, Nat.mul_one]
    calc (shortest t b).coefficient * 10 ^ j ≤ (4 * b.mantissa + 2) * 2 ^ s := hhigh ▸ hle
      _ ≤ (2 ^ 55 - 6) * 2 ^ s := Nat.mul_le_mul_right _ (by omega)
      _ ≤ ceiling := mul_le_ceiling (by omega)
  · have := hshort 292 hdigits hneighbour
    omega

/-- The shortest digits of the last of all numbers. -/
theorem shortest_last : shortest .even ⟨2 ^ 53 - 1, 971⟩ = ⟨17976931348623157, 292⟩ := by
  decide +kernel

/-! ### Reach -/

/-- Leading digits, with zeros for the others, stand for no more than all digits do. -/
theorem Digits.AtMost.scaled {d : Digits} {bound m l : Nat} (hd : d.AtMost bound)
    (hm : m * 10 ^ l ≤ d.coefficient) (he : 0 ≤ d.exponent + l) :
    m * 10 ^ (d.exponent + l).natAbs ≤ bound := by
  rw [AtMost] at hd
  obtain ⟨e, hpos | hneg⟩ := d.exponent.eq_nat_or_neg
  · rw [hpos, Int.toNat_natCast, show (-(e : Int)).toNat = 0 by omega, Nat.pow_zero,
      Nat.mul_one] at hd
    rw [hpos, show ((e : Int) + l).natAbs = l + e by omega, Nat.pow_add, ← Nat.mul_assoc]
    exact (Nat.mul_le_mul_right _ hm).trans hd
  · rw [hneg, show (-(e : Int)).toNat = 0 by omega, Int.neg_neg, Int.toNat_natCast, Nat.pow_zero,
      Nat.mul_one] at hd
    refine Nat.le_of_mul_le_mul_right (c := 10 ^ e) ?_ (Nat.pow_pos (by decide))
    rw [hneg, Nat.mul_assoc, ← Nat.pow_add, show (-(e : Int) + l).natAbs + e = l by omega]
    exact hm.trans hd

/-- Digits up to one of the bounds that products with powers of ten have. -/
def Digits.WithinReach (d : Digits) : Prop := d.AtMost half ∨ 292 ≤ d.exponent ∧ d.AtMost ceiling

namespace Digits.WithinReach

variable {d : Digits} {l : Nat}

theorem isSome_multiplied? (hd : d.WithinReach) (hm : m * 10 ^ l ≤ d.coefficient)
    (he : 0 ≤ d.exponent + l) :
    (Json.multiplied? (Float.ofNat m) (d.exponent + l).natAbs).isSome = true := by
  apply Decimal.isSome_multiplied?
  rcases hd with hhalf | ⟨hlarge, hceiling⟩
  · exact .inl (hhalf.scaled hm he)
  · exact .inr ⟨by omega, hceiling.scaled hm he⟩

/-- The first digit of digits within reach has no larger exponent than the largest number. -/
theorem le_of_le (hd : d.WithinReach) (hfirst : 10 ^ l ≤ d.coefficient) :
    d.exponent + l ≤ 308 := by
  by_contra hlarge
  obtain ⟨hhalf, hceiling⟩ := bounds_lt_overflow
  have hover := overflow_le_ten_pow (k := (d.exponent + l).natAbs) (by omega)
  rw [← Nat.one_mul (10 ^ l)] at hfirst
  rcases hd with h | ⟨-, h⟩
  all_goals
    have := h.scaled hfirst (by omega)
    omega

end Digits.WithinReach

/-- Every number but the last one has digits within reach. -/
theorem withinReach_shortest (hpos : 0 < b.mantissa) (hm : b.mantissa < 2 ^ 53)
    (hb : b.exponent ≤ 971) (hlarge : b.exponent = 971 → 2 ^ 52 ≤ b.mantissa)
    (hlast : b ≠ ⟨2 ^ 53 - 1, 971⟩) :
    0 < (shortest t b).coefficient ∧ (shortest t b).WithinReach := by
  by_cases htop : b.exponent = 971
  · have hne : b.mantissa ≠ 2 ^ 53 - 1 := by
      intro hm
      apply hlast
      obtain ⟨m, e⟩ := b
      exact congr (congrArg Binary.mk hm) htop
    obtain ⟨hcoefficient, hle, hexponent⟩ := atMost_ceiling (t := t) (hlarge htop) (by omega)
      htop
    exact ⟨hcoefficient, .inr ⟨hexponent, hle⟩⟩
  · obtain ⟨hcoefficient, hle⟩ := atMost_half (t := t) hpos hm (by omega)
    exact ⟨hcoefficient, .inl hle⟩

end LiveRules.Decimal
