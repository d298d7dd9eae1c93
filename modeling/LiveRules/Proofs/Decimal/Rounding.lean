import LiveRules.Json.Number
import Mathlib.Algebra.Order.Field.Power
import Mathlib.Tactic.FieldSimp
import Mathlib.Tactic.Linarith
import Mathlib.Tactic.Positivity
import Mathlib.Tactic.NormNum
import Mathlib.Tactic.Ring
import Mathlib.Data.Rat.Cast.Order

/-!
Products of binary64 numbers. A number is packed with the 53 bits that it was rounded to, and
rounding adds at most half a unit in the last place. So a natural number times a power of ten, both
rounded and their product rounded again, is finite as long as it stays away from the magnitudes that
are rounded to infinity.
-/

namespace LiveRules.Decimal

open Float.Model Float.Model.UnpackedFloat

variable {m n s : Nat} {e : Int} {sign : Sign}

/-! ### Mantissas -/

/-- A mantissa without its last bits, rounded. -/
def shifted (m s : Nat) : Nat :=
  ((⟨m, false, false⟩ : ExtendedMantissa) >>> s).roundedMantissa

theorem shiftRight_succ (em : ExtendedMantissa) (s : Nat) :
    em >>> (s + 1) = (em >>> s).shiftRightOne := rfl

theorem shiftRight_add (em : ExtendedMantissa) (k s : Nat) : em >>> (k + s) = em >>> k >>> s := by
  induction s with
  | zero => rfl
  | succ s ih => rw [← Nat.add_assoc, shiftRight_succ, shiftRight_succ, ih]

/-- Bits that are zero are shifted out without a trace. -/
theorem shiftRight_mul_two_pow (m k : Nat) :
    (⟨m * 2 ^ k, false, false⟩ : ExtendedMantissa) >>> k = ⟨m, false, false⟩ := by
  induction k generalizing m with
  | zero => rw [Nat.pow_zero, Nat.mul_one]; rfl
  | succ k ih =>
    rw [shiftRight_succ, Nat.pow_succ', ← Nat.mul_assoc, ih, ExtendedMantissa.shiftRightOne]
    simp

theorem mantissa_shiftRight (m s : Nat) :
    ((⟨m, false, false⟩ : ExtendedMantissa) >>> s).mantissa = m / 2 ^ s := by
  induction s with
  | zero => exact (Nat.div_one m).symm
  | succ s ih =>
    rw [shiftRight_succ, ExtendedMantissa.shiftRightOne, ih, Nat.div_div_eq_div_mul, Nat.pow_succ]

/-- The round bit of a shifted mantissa tells that at least half a unit was cut off. -/
theorem roundBit_shiftRight
    (h : ((⟨m, false, false⟩ : ExtendedMantissa) >>> s).roundBit = true) :
    2 ^ s ≤ 2 * (m % 2 ^ s) := by
  cases s with
  | zero => cases h
  | succ s =>
    rw [shiftRight_succ, ExtendedMantissa.shiftRightOne, mantissa_shiftRight, bne_iff_ne] at h
    have hbit : m / 2 ^ s % 2 = 1 := by omega
    rw [Nat.mod_pow_succ, hbit, Nat.pow_succ]
    omega

theorem roundedMantissa_le (em : ExtendedMantissa) : em.mantissa ≤ em.roundedMantissa ∧
    em.roundedMantissa ≤ em.mantissa + 1 ∧
    (em.roundBit = false → em.roundedMantissa = em.mantissa) := by
  obtain ⟨m, round, sticky⟩ := em
  cases round <;> cases sticky <;>
    simp [ExtendedMantissa.roundedMantissa, ExtendedMantissa.accuracy,
      Accuracy.roundToNearestEven]
  omega

theorem shifted_bounds (m s : Nat) : m / 2 ^ s ≤ shifted m s ∧ shifted m s ≤ m / 2 ^ s + 1 := by
  obtain ⟨hlow, hhigh, -⟩ := roundedMantissa_le ((⟨m, false, false⟩ : ExtendedMantissa) >>> s)
  rw [mantissa_shiftRight] at hlow hhigh
  exact ⟨hlow, hhigh⟩

/-- Rounding adds at most half a unit. -/
theorem shifted_le (m s : Nat) : 2 * (shifted m s * 2 ^ s) ≤ 2 * m + 2 ^ s := by
  have hdiv := Nat.div_add_mod m (2 ^ s)
  obtain ⟨-, hhigh, hexact⟩ := roundedMantissa_le ((⟨m, false, false⟩ : ExtendedMantissa) >>> s)
  rw [mantissa_shiftRight] at hhigh hexact
  cases hround : ((⟨m, false, false⟩ : ExtendedMantissa) >>> s).roundBit with
  | false =>
    rw [shifted, hexact hround]
    have := Nat.div_mul_le_self m (2 ^ s)
    omega
  | true =>
    have hhalf := roundBit_shiftRight hround
    have hmul : shifted m s * 2 ^ s ≤ (m / 2 ^ s + 1) * 2 ^ s := Nat.mul_le_mul_right _ hhigh
    rw [Nat.add_mul, Nat.mul_comm (m / 2 ^ s)] at hmul
    omega

theorem shifted_zero (m : Nat) : shifted m 0 = m := rfl

theorem shifted_mul_two_pow (m k s : Nat) : shifted (m * 2 ^ k) (k + s) = shifted m s := by
  rw [shifted, shiftRight_add, shiftRight_mul_two_pow, shifted]

/-! ### Rounding -/

theorem targetExponent_eq (m : Nat) (e : Int) :
    Format.binary64.targetExponent (totalExponent m e) = max (m.log2 + e - 52) (-1074) := by
  have hbits : Format.binary64.mantissaBits = 53 := rfl
  have hleast : Format.binary64.minExponent = -1074 := rfl
  rw [Format.targetExponent, totalExponent, hbits, hleast]
  omega

theorem shiftToTargetExponent_eq (h : -1074 ≤ m.log2 + e - 52) (hm : 52 ≤ m.log2) :
    shiftToTargetExponent .binary64 m e .exact =
      ((⟨m, false, false⟩ : ExtendedMantissa) >>> (m.log2 - 52), m.log2 + e - 52) := by
  have hshift : ((m.log2 : Int) + e - 52 - e).toNat = m.log2 - 52 := by omega
  rw [shiftToTargetExponent, targetExponent_eq, max_eq_left h, shiftToExponent, hshift]
  refine Prod.ext rfl ?_
  dsimp only
  omega

theorem two_zpow_pos (e : Int) : (0 : ℚ) < 2 ^ e := zpow_pos (by norm_num) e

theorem two_zpow_add (a b : Int) : (2 : ℚ) ^ (a + b) = 2 ^ a * 2 ^ b :=
  zpow_add₀ (by norm_num) a b

/-- A mantissa of 53 bits or more is cut to 53 bits, or to the next power of two. -/
theorem shifted_cases (hm : 52 ≤ m.log2) :
    (shifted m (m.log2 - 52)).log2 = 52 ∨ shifted m (m.log2 - 52) = 2 ^ 53 := by
  have hne : m ≠ 0 := by
    rintro rfl
    exact absurd hm (by decide)
  have hlow : 2 ^ 52 * 2 ^ (m.log2 - 52) ≤ m := by
    rw [← Nat.pow_add, Nat.add_sub_cancel' hm]
    exact Nat.log2_self_le hne
  have hhigh : m < 2 ^ 53 * 2 ^ (m.log2 - 52) := by
    rw [← Nat.pow_add, show 53 + (m.log2 - 52) = m.log2 + 1 by omega]
    exact Nat.lt_log2_self
  have hpos : 0 < 2 ^ (m.log2 - 52) := Nat.two_pow_pos _
  have hquotient := (Nat.le_div_iff_mul_le hpos).mpr hlow
  have hquotient' := (Nat.div_lt_iff_lt_mul hpos).mpr hhigh
  obtain ⟨hbelow, habove⟩ := shifted_bounds m (m.log2 - 52)
  by_cases hlast : shifted m (m.log2 - 52) = 2 ^ 53
  · exact .inr hlast
  · exact .inl ((Nat.log2_eq_iff (by omega)).mpr ⟨by omega, by omega⟩)

/-- A long enough mantissa is rounded to 53 bits. -/
theorem roundWithAccuracy_eq (sign : Sign) (h : -1074 ≤ m.log2 + e - 52) (hm : 52 ≤ m.log2) :
    ∃ r t hr, roundWithAccuracy .binary64 sign m e .exact = .finite sign r t hr ∧
      r.log2 = 52 ∧ m.log2 + e - 52 ≤ t ∧
      (r : ℚ) * 2 ^ t = shifted m (m.log2 - 52) * 2 ^ (m.log2 + e - 52) := by
  have hround : roundWithAccuracy .binary64 sign m e .exact =
      let (x, t) := shiftToTargetExponent .binary64 (shifted m (m.log2 - 52)) (m.log2 + e - 52)
        .exact
      if h : x.mantissa = 0 then .zero sign
      else .finite sign x.mantissa t (Nat.pos_of_ne_zero h) := by
    rw [roundWithAccuracy, shiftToTargetExponent_eq h hm]
    rfl
  have hcases := shifted_cases hm
  generalize (m.log2 : Int) + e - 52 = t at *
  generalize shifted m (m.log2 - 52) = r at *
  rw [hround]
  rcases hcases with hlog | rfl
  · have hpos : r ≠ 0 := by
      rintro rfl
      exact absurd hlog (by decide)
    have hnext : shiftToTargetExponent .binary64 r t .exact = (⟨r, false, false⟩, t) := by
      rw [shiftToTargetExponent_eq (by omega) (by omega), hlog, Nat.sub_self]
      exact Prod.ext rfl (by dsimp only; omega)
    rw [hnext]
    exact ⟨r, t, Nat.pos_of_ne_zero hpos, dif_neg hpos, hlog, Int.le_refl t, rfl⟩
  · -- the mantissa has grown by a bit, and is shifted once more
    have hnext : shiftToTargetExponent .binary64 (2 ^ 53) t .exact =
        (⟨2 ^ 52, false, false⟩, t + 1) := by
      rw [shiftToTargetExponent_eq (by rw [Nat.log2_two_pow]; omega)
        (by rw [Nat.log2_two_pow]; omega), Nat.log2_two_pow]
      exact Prod.ext rfl (by dsimp only; omega)
    rw [hnext]
    refine ⟨2 ^ 52, t + 1, by decide, dif_neg (by decide), Nat.log2_two_pow, by omega, ?_⟩
    rw [two_zpow_add]
    push_cast
    ring

/-! ### Packing -/

theorem unpackSign_packComponents {spec : Format} {x : BitVec spec.exponentBits}
    {y : BitVec spec.mantissaBitsWithoutImplicit} :
    unpackSign (packComponents spec sign x y) = sign.toBitVec := by
  delta unpackSign packComponents
  apply BitVec.eq_of_getLsbD_eq
  intro i hi
  obtain rfl : i = 0 := by omega
  simp [BitVec.getLsbD_append, BitVec.getElem_append]

theorem finite_congr {sign' : Sign} {m' : Nat} {e' : Int} {hm : 0 < m} {hm' : 0 < m'}
    (hsign : sign = sign') (hmantissa : m = m') (hexponent : e = e') :
    UnpackedFloat.finite sign m e hm = .finite sign' m' e' hm' := by
  subst hsign hmantissa hexponent
  rfl

theorem toNat_append_mantissa (y : BitVec 52) : (1#1 ++ y).toNat = 2 ^ 52 + y.toNat := by
  rw [BitVec.toNat_append, ← Nat.shiftLeft_add_eq_or_of_lt y.isLt]
  rfl

/-- A number of 53 bits is unpacked as it was packed. -/
theorem unpack_pack {hm : 0 < m} (hlog : m.log2 = 52) (hlow : -1074 ≤ e) (hhigh : e ≤ 971) :
    (pack (.finite sign m e hm)).unpack = .finite sign m e hm := by
  obtain ⟨hleast, hmost⟩ := (Nat.log2_eq_iff hm.ne').mp hlog
  -- the biased exponent is neither that of zeros nor that of infinities
  obtain ⟨b, hb⟩ : ∃ b : Nat, (b : Int) = e + 1075 := ⟨(e + 1075).toNat, by omega⟩
  have hbias : (e + (Format.binary64.exponentBias : Nat) +
      (Format.binary64.mantissaBitsWithoutImplicit : Nat)).toNat = b := by
    show (e + 1023 + 52).toNat = b
    omega
  have hexponent : (BitVec.ofNat 11 b).toNat = b := by
    rw [BitVec.toNat_ofNat, Nat.mod_eq_of_lt (by omega)]
  have hfinite : BitVec.ofNat 11 b ≠ -1#11 := fun hno => by
    have := congrArg BitVec.toNat hno
    rw [hexponent] at this
    simp at this
    omega
  have hnormal : BitVec.ofNat 11 b ≠ 0#11 := fun hno => by
    have := congrArg BitVec.toNat hno
    rw [hexponent] at this
    simp at this
    omega
  have hpacked : UnpackedFloat.pack .binary64 (.finite sign m e hm) =
      packComponents .binary64 sign (BitVec.ofNat 11 b) (BitVec.ofNat 52 m) := by
    unfold UnpackedFloat.pack
    dsimp only
    rw [hbias, if_neg (by show ¬2 ^ 11 ≤ b + 1; omega),
      if_pos (by rw [hlog]; rfl)]
  have hmantissa : (1#1 ++ BitVec.ofNat 52 m).toNat = m := by
    rw [toNat_append_mantissa, BitVec.toNat_ofNat]
    omega
  show UnpackedFloat.unpack .binary64 (UnpackedFloat.pack .binary64 (.finite sign m e hm)) = _
  rw [hpacked]
  delta UnpackedFloat.unpack
  dsimp only
  rw [if_neg fun hall => hfinite (unpackExponent_packComponents.symm.trans hall),
    if_neg fun hno => hnormal (unpackExponent_packComponents.symm.trans hno)]
  refine finite_congr ?_ ?_ ?_
  · rw [unpackSign_packComponents]
    cases sign <;> rfl
  · rw [unpackMantissa_packComponents, hmantissa]
  · rw [unpackExponent_packComponents, hexponent]
    show (b : Int) - (1023 + 52) = e
    omega

/-! ### Numbers -/

/-- All bits from one place up to another. -/
def bits (low high : Nat) : Nat := 2 ^ high - 2 ^ low

theorem cast_bits {low high : Nat} (h : low ≤ high) : (bits low high : ℚ) = 2 ^ high - 2 ^ low := by
  rw [bits, Nat.cast_sub (Nat.pow_le_pow_right (by decide) h)]
  push_cast
  rfl

/-- The magnitudes from half a unit above the last number on are rounded to infinity. -/
@[irreducible] def overflow : Nat := bits 970 1024

theorem cast_overflow : (overflow : ℚ) = 2 ^ 1024 - 2 ^ 970 := by
  unfold overflow
  exact cast_bits (by omega)

/-- A mantissa in its place. -/
def value (m : Nat) (e : Int) : ℚ := m * 2 ^ e

/-- The place of the last of the 53 bits that a number is rounded to. -/
def lastPlace (m : Nat) (e : Int) : Int := m.log2 + e - 52

theorem value_shifted_le (hm : 52 ≤ m.log2) :
    2 * value (shifted m (m.log2 - 52)) (lastPlace m e) ≤
      2 * value m e + 2 ^ lastPlace m e := by
  have hplace : lastPlace m e = (m.log2 - 52 : Nat) + e := by
    rw [lastPlace]
    omega
  have hle : (2 * (shifted m (m.log2 - 52) * 2 ^ (m.log2 - 52)) : ℚ) ≤
      2 * m + 2 ^ (m.log2 - 52) := by
    exact_mod_cast shifted_le m (m.log2 - 52)
  have hmul := mul_le_mul_of_nonneg_right hle (two_zpow_pos e).le
  rw [value, value, hplace, two_zpow_add, zpow_natCast]
  linarith

theorem two_pow_log2_le (hm : m ≠ 0) : (2 : ℚ) ^ ((m.log2 : Int) + e) ≤ value m e := by
  have hleast : (2 : ℚ) ^ m.log2 ≤ m := by exact_mod_cast Nat.log2_self_le hm
  rw [two_zpow_add, zpow_natCast, value]
  exact mul_le_mul_of_nonneg_right hleast (two_zpow_pos e).le

theorem two_zpow_le {a b : Int} (h : a ≤ b) : (2 : ℚ) ^ a ≤ 2 ^ b :=
  zpow_le_zpow_right₀ (by norm_num) h

/-- A number that does not overflow is rounded to 53 bits, at most half a unit above it. -/
theorem pack_roundWithAccuracy (sign : Sign) (hm : 52 ≤ m.log2) (hlow : -1074 ≤ lastPlace m e)
    (hhigh : value m e < overflow) : ∃ r t hr,
      (pack (roundWithAccuracy .binary64 sign m e .exact)).unpack = .finite sign r t hr ∧
      r.log2 = 52 ∧ -1074 ≤ t ∧ value r t = value (shifted m (m.log2 - 52)) (lastPlace m e) := by
  obtain ⟨r, t, hr, hround, hlog, hplace, hvalue⟩ := roundWithAccuracy_eq sign hlow hm
  refine ⟨r, t, hr, ?_, hlog, hlow.trans hplace, hvalue⟩
  rw [hround]
  refine unpack_pack hlog (hlow.trans hplace) ?_
  have hne : m ≠ 0 := by
    rintro rfl
    exact absurd hm (by decide)
  -- neither the number nor half a unit above it reaches the power of two after the last
  have hlast : lastPlace m e ≤ 971 := by
    by_contra hno
    have hleast := (two_zpow_le (a := 1024) (by rw [lastPlace] at hno; omega)).trans
      (two_pow_log2_le (e := e) hne)
    rw [zpow_ofNat] at hleast
    rw [cast_overflow] at hhigh
    have hpos : (0 : ℚ) < 2 ^ 970 := by positivity
    generalize (2 : ℚ) ^ 1024 = x, (2 : ℚ) ^ 970 = y at *
    linarith
  by_contra hno
  have hrounded := value_shifted_le (e := e) hm
  have hunit := two_zpow_le hlast
  have hleast := (two_zpow_le (a := 1024) (by rw [hlog]; omega)).trans
    (two_pow_log2_le (e := t) hr.ne')
  have hsame : value r t = value (shifted m (m.log2 - 52)) (lastPlace m e) := hvalue
  rw [hsame] at hleast
  rw [cast_overflow] at hhigh
  rw [zpow_ofNat] at hunit hleast
  have hdouble : (2 : ℚ) ^ 971 = 2 * 2 ^ 970 := pow_succ' 2 970
  generalize (2 : ℚ) ^ 1024 = x, (2 : ℚ) ^ 971 = y, (2 : ℚ) ^ 970 = z at *
  linarith

/-- The magnitude of a binary64 number that has all of its 53 bits. -/
def Has (x : Float) (m : Nat) (e : Int) : Prop :=
  m.log2 = 52 ∧ -1074 ≤ e ∧ ∃ sign h, x.toModel.unpack = .finite sign m e h

theorem Has.not_isInf {x : Float} (h : Has x m e) : x.isInf = false := by
  obtain ⟨-, -, sign, hm, hx⟩ := h
  show x.toModel.unpack.isInf = false
  rw [hx]
  rfl

/-- The product of two numbers is rounded once. -/
theorem Has.mul {x y : Float} {d : Int} (hx : Has x m e) (hy : Has y n d)
    (hlow : -1126 ≤ e + d) (hhigh : value (m * n) (e + d) < overflow) :
    ∃ r t, Has (x * y) r t ∧
      value r t = value (shifted (m * n) ((m * n).log2 - 52)) (lastPlace (m * n) (e + d)) := by
  obtain ⟨hlogm, -, s, hm, hx⟩ := hx
  obtain ⟨hlogn, -, s', hn, hy⟩ := hy
  have hlog : 104 ≤ (m * n).log2 := by
    refine (Nat.le_log2 (Nat.mul_ne_zero hm.ne' hn.ne')).mpr ?_
    rw [show 104 = 52 + 52 from rfl, Nat.pow_add]
    exact Nat.mul_le_mul ((Nat.log2_eq_iff hm.ne').mp hlogm).1
      ((Nat.log2_eq_iff hn.ne').mp hlogn).1
  obtain ⟨r, t, hr, hunpack, hlogr, ht, hvalue⟩ := pack_roundWithAccuracy (s * s')
    (m := m * n) (e := e + d) (by omega) (by rw [lastPlace]; omega) hhigh
  refine ⟨r, t, ⟨hlogr, ht, s * s', hr, ?_⟩, hvalue⟩
  rw [← hunpack]
  show (pack (UnpackedFloat.mul .binary64 x.toModel.unpack y.toModel.unpack)).unpack = _
  rw [hx, hy]
  rfl

/-! ### Natural numbers -/

theorem log2_mul_two_pow (hn : n ≠ 0) (k : Nat) : (n * 2 ^ k).log2 = n.log2 + k := by
  refine (Nat.log2_eq_iff (Nat.mul_ne_zero hn (Nat.two_pow_pos k).ne')).mpr ⟨?_, ?_⟩
  · rw [Nat.pow_add]
    exact Nat.mul_le_mul_right _ (Nat.log2_self_le hn)
  · rw [Nat.add_right_comm, Nat.pow_add]
    exact Nat.mul_lt_mul_of_pos_right Nat.lt_log2_self (Nat.two_pow_pos k)

theorem value_mul_two_pow (n k : Nat) (e : Int) : value (n * 2 ^ k) (e - k) = value n e := by
  rw [value, value, zpow_sub₀ (by norm_num), zpow_natCast]
  push_cast
  field_simp

/-- A natural number, rounded to 53 bits. -/
def nearest (n : Nat) : Nat := shifted n (n.log2 - 52) * 2 ^ (n.log2 - 52)

theorem nearest_le (n : Nat) : 2 * nearest n ≤ 2 * n + 2 ^ (n.log2 - 52) := shifted_le n _

theorem nearest_of_lt (h : n < 2 ^ 53) : nearest n = n := by
  have hshift : n.log2 - 52 = 0 := by
    rcases Nat.eq_zero_or_pos n with rfl | hpos
    · rfl
    · have := (Nat.log2_lt hpos.ne').mpr h
      omega
  rw [nearest, hshift, shifted_zero, Nat.pow_zero, Nat.mul_one]

theorem value_nearest (n : Nat) :
    value (shifted n (n.log2 - 52)) (n.log2 - 52 : Nat) = nearest n := by
  rw [value, zpow_natCast, nearest]
  push_cast
  rfl

/-- A natural number with zeros to make it long enough is rounded as it is. -/
theorem pack_nat (sign : Sign) {k : Nat} (h0 : n ≠ 0) (hlog : 52 ≤ n.log2 + k) (hk : k ≤ 1074)
    (hhigh : n < overflow) : ∃ r t hr,
      (pack (roundWithAccuracy .binary64 sign (n * 2 ^ k) (0 - k) .exact)).unpack =
        .finite sign r t hr ∧
      r.log2 = 52 ∧ -1074 ≤ t ∧ value r t = nearest n := by
  have hlong : (n * 2 ^ k).log2 = n.log2 + k := log2_mul_two_pow h0 k
  have hplace : lastPlace (n * 2 ^ k) (0 - k) = n.log2 - 52 := by
    rw [lastPlace, hlong]
    omega
  obtain ⟨r, t, hr, hunpack, hlogr, ht, hvalue⟩ := pack_roundWithAccuracy sign
    (m := n * 2 ^ k) (e := 0 - k) (hlong.ge.trans' hlog) (by rw [hplace]; omega)
    (by rw [value_mul_two_pow, value, zpow_zero, mul_one]; exact_mod_cast hhigh)
  refine ⟨r, t, hr, hunpack, hlogr, ht, ?_⟩
  rw [hvalue, hplace, hlong]
  by_cases hn : 52 ≤ n.log2
  · rw [← value_nearest, show n.log2 + k - 52 = k + (n.log2 - 52) by omega, shifted_mul_two_pow]
    congr 1
    omega
  · -- so few bits are not rounded at all
    obtain ⟨j, hj⟩ : ∃ j, n.log2 + j = 52 := ⟨52 - n.log2, by omega⟩
    have hsmall : n < 2 ^ 53 := (Nat.log2_lt h0).mp (by omega)
    have hcut : n * 2 ^ k = n * 2 ^ j * 2 ^ (k - j) := by
      rw [Nat.mul_assoc, ← Nat.pow_add]
      congr 2
      omega
    have hshift : n.log2 + k - 52 = k - j + 0 := by omega
    rw [hcut, hshift, shifted_mul_two_pow, shifted_zero, nearest_of_lt hsmall,
      show (n.log2 : Int) - 52 = 0 - j by omega, value_mul_two_pow, value, zpow_zero, mul_one]

/-- The largest numbers have 309 decimal digits. -/
theorem ten_pow_lt_overflow_iff : ∀ k < 310, 10 ^ k < overflow ↔ k < 309 := by decide +kernel

theorem ten_pow_lt_overflow {k : Nat} (hk : k ≤ 308) : 10 ^ k < overflow :=
  (ten_pow_lt_overflow_iff k (by omega)).mpr (by omega)

theorem overflow_le_ten_pow {k : Nat} (hk : 308 < k) : overflow ≤ 10 ^ k := by
  have hleast := (ten_pow_lt_overflow_iff 309 (by decide)).not.mpr (by decide)
  exact (Nat.le_of_not_lt hleast).trans (pow_le_pow_right₀ (by decide) hk)

theorem pow_53_lt_overflow : 2 ^ 53 < overflow :=
  lt_trans (by decide : 2 ^ 53 < 10 ^ 16) (ten_pow_lt_overflow (by decide))

/-- A number for a natural number, rounded. -/
def Nears (x : Float) (n : Nat) : Prop := ∃ m e, Has x m e ∧ value m e = nearest n

/-- A number below 2 ^ 53 is a binary64 number. -/
theorem nears_toFloat (h0 : 0 < n) (hn : n < 2 ^ 53) : Nears n.toUInt64.toFloat n := by
  have hlog : n.log2 ≤ 52 := by
    have := (Nat.log2_lt h0.ne').mpr hn
    omega
  have htarget : Format.binary64.targetExponent (totalExponent n 0) = -(52 - n.log2 : Nat) := by
    rw [targetExponent_eq]
    omega
  have hmodel : n.toUInt64.toFloat.toModel = pack (roundWithAccuracy .binary64 .positive
      (n * 2 ^ (52 - n.log2)) (0 - (52 - n.log2 : Nat)) .exact) := by
    have hnat : n.toUInt64.toNat = n := by
      rw [Nat.toUInt64_eq, UInt64.toNat_ofNat_of_lt']
      exact hn.trans (by decide)
    have hshift : ((0 : Int) - -(52 - n.log2 : Nat)).toNat = 52 - n.log2 := by omega
    have hcompare : compare (n : Int) 0 = .gt := Int.compare_eq_gt.mpr (by omega)
    show pack (UnpackedFloat.normalize .binary64 (n.toUInt64.toNat : Int) 0 .positive) = _
    rw [hnat, UnpackedFloat.normalize, hcompare]
    dsimp only
    rw [Int.toNat_natCast, UnpackedFloat.round, htarget, decreaseExponent]
    dsimp only
    rw [hshift, Nat.shiftLeft_eq]
  obtain ⟨r, t, hr, hunpack, hlogr, ht, hvalue⟩ := pack_nat .positive
    (k := 52 - n.log2) h0.ne' (by omega) (by omega) (hn.trans pow_53_lt_overflow)
  exact ⟨r, t, ⟨hlogr, ht, .positive, hr, hmodel ▸ hunpack⟩, hvalue⟩

/-- The number for a decimal without a fraction is the nearest one. -/
theorem nears_ofModel {k : Nat} (h0 : n ≠ 0) (hk : k ≤ 308) (hhigh : n * 10 ^ k < overflow) :
    Nears (.ofModel (Float.Model.ofScientific n k)) (n * 10 ^ k) := by
  have hmodel : Float.Model.ofScientific n k = pack (roundWithAccuracy .binary64 .positive
      (n * 10 ^ k * 2 ^ 53) (0 - (53 : Nat)) .exact) := by
    have hsmall : ¬(k : Int) > 2 ^ 11 := by omega
    have hlarge : ¬(k : Int) < -(2 ^ 11 + n.log2) := by omega
    rw [Float.Model.ofScientific, UnpackedFloat.ofScientific, dif_neg h0, if_neg hsmall,
      if_neg hlarge, if_pos (by omega)]
    show pack (roundWithAccuracy .binary64 .positive (n <<< 53 * 10 ^ k) (-53 + 0) .exact) = _
    rw [Nat.shiftLeft_eq, Nat.mul_right_comm]
    rfl
  have hne : n * 10 ^ k ≠ 0 := Nat.mul_ne_zero h0 (Nat.pow_pos (by decide)).ne'
  obtain ⟨r, t, hr, hunpack, hlogr, ht, hvalue⟩ := pack_nat .positive (k := 53)
    hne (by omega) (by omega) hhigh
  exact ⟨r, t, ⟨hlogr, ht, .positive, hr, hmodel ▸ hunpack⟩, hvalue⟩

theorem nearest_pos (h0 : 0 < n) : 0 < nearest n := by
  refine Nat.mul_pos (lt_of_lt_of_le ?_ (shifted_bounds n _).1) (Nat.two_pow_pos _)
  refine Nat.div_pos (le_trans ?_ (Nat.log2_self_le h0.ne')) (Nat.two_pow_pos _)
  exact Nat.pow_le_pow_right (by decide) (Nat.sub_le _ _)

theorem Nears.exists_has {x : Float} (h : Nears x n) (h0 : 0 < n) :
    ∃ m e, Has x m e ∧ value m e = nearest n ∧ -52 ≤ e := by
  obtain ⟨m, e, hm, hvalue⟩ := h
  refine ⟨m, e, hm, hvalue, ?_⟩
  -- a number of 53 bits that reaches one has its first bit before the point
  by_contra hno
  obtain ⟨hlog, -, sign, hpos, -⟩ := hm
  have hmost : (m : ℚ) < 2 ^ 53 := by exact_mod_cast ((Nat.log2_eq_iff hpos.ne').mp hlog).2
  have hone : (1 : ℚ) ≤ value m e := by
    rw [hvalue]
    exact_mod_cast nearest_pos h0
  have hplace : (2 : ℚ) ^ e ≤ 2 ^ (-53 : Int) := two_zpow_le (by omega)
  have hless : value m e < 2 ^ 53 * 2 ^ (-53 : Int) := by
    calc value m e < 2 ^ 53 * 2 ^ e := mul_lt_mul_of_pos_right hmost (two_zpow_pos e)
      _ ≤ 2 ^ 53 * 2 ^ (-53 : Int) := mul_le_mul_of_nonneg_left hplace (by norm_num)
  norm_num at hless
  linarith

/-- A product with the number one is not rounded. -/
theorem Nears.mul_one {x : Float} (h : Nears x n) (h0 : 0 < n)
    (hhigh : nearest n < overflow) : Nears (x * Float.ofBits 0x3FF0000000000000) n := by
  have hone : Has (Float.ofBits 0x3FF0000000000000) (2 ^ 52) (-52) :=
    ⟨by decide, by decide, .positive, by decide, rfl⟩
  obtain ⟨m, e, hm, hvalue, he⟩ := h.exists_has h0
  have hplain : value (m * 2 ^ 52) (e + -52) = value m e := value_mul_two_pow m 52 e
  obtain ⟨r, t, hr, hproduct⟩ := hm.mul hone (by omega) (by rw [hplain, hvalue]; exact_mod_cast hhigh)
  obtain ⟨hlog, -, sign, hpos, -⟩ := hm
  have hlong : (m * 2 ^ 52).log2 = 104 := by rw [log2_mul_two_pow hpos.ne', hlog]
  refine ⟨r, t, hr, ?_⟩
  rw [hproduct, hlong, show 104 - 52 = 52 + 0 from rfl, shifted_mul_two_pow, shifted_zero,
    ← hvalue]
  congr 1
  rw [lastPlace, hlong]
  omega

/-- A product of natural numbers is finite if it does not overflow. -/
theorem Nears.not_isInf_mul {x y : Float} (hx : Nears x m) (hy : Nears y n) (hm : 0 < m)
    (hn : 0 < n) (h : nearest m * nearest n < overflow) : (x * y).isInf = false := by
  obtain ⟨a, e, ha, hvalue, he⟩ := hx.exists_has hm
  obtain ⟨b, d, hb, hvalue', hd⟩ := hy.exists_has hn
  have hproduct : value (a * b) (e + d) = (nearest m * nearest n : Nat) := by
    rw [Nat.cast_mul, ← hvalue, ← hvalue', value, value, value, two_zpow_add]
    push_cast
    ring
  obtain ⟨r, t, hr, -⟩ := ha.mul hb (by omega) (by rw [hproduct]; exact_mod_cast h)
  exact hr.not_isInf

theorem nears_ofNat (h0 : 0 < n) (hhigh : n < overflow) : Nears (Float.ofNat n) n := by
  show Nears (Float.ofScientific n false 0) n
  unfold Float.ofScientific
  by_cases hsmall : n < 2 ^ 53
  · rw [dif_pos ⟨hsmall, by decide⟩, if_neg (by decide)]
    refine (nears_toFloat h0 hsmall).mul_one h0 ?_
    rwa [nearest_of_lt hsmall]
  · rw [dif_neg fun hno => hsmall hno.1, if_neg (by decide)]
    have h := nears_ofModel (k := 0) h0.ne' (by decide)
      (by rwa [Nat.pow_zero, Nat.mul_one])
    rwa [Nat.pow_zero, Nat.mul_one] at h

/-- Whether a computed number is the nearest to a natural number. -/
def isNear (x : Float) (n : Nat) : Bool :=
  match x.toModel.unpack with
  | .finite _ m e _ =>
    m.log2 == 52 && decide (-52 ≤ e) && m * 2 ^ (e + 52).toNat == nearest n * 2 ^ 52
  | _ => false

theorem nears_of_isNear {x : Float} (h : isNear x n = true) : Nears x n := by
  unfold isNear at h
  split at h
  · rename_i sign m e hm hx
    simp only [Bool.and_eq_true, beq_iff_eq, decide_eq_true_eq] at h
    obtain ⟨⟨hlog, he⟩, hsame⟩ := h
    refine ⟨m, e, ⟨hlog, by omega, sign, hm, hx⟩, ?_⟩
    obtain ⟨k, hk⟩ : ∃ k : Nat, (k : Int) = e + 52 := ⟨(e + 52).toNat, by omega⟩
    obtain rfl : e = k - 52 := by omega
    rw [← hk, Int.toNat_natCast] at hsame
    have hcast : (m : ℚ) * 2 ^ k = nearest n * 2 ^ 52 := by exact_mod_cast hsame
    rw [value, zpow_sub₀ (by norm_num), zpow_natCast, ← mul_div_assoc, hcast]
    norm_num
  · cases h

/-- The smaller powers of ten are kept in a table. -/
theorem isNear_tenPower : ∀ k < 23, isNear (Json.tenPower k) (10 ^ k) = true := by
  decide +kernel

theorem nears_tenPower {k : Nat} (hk : k ≤ 308) : Nears (Json.tenPower k) (10 ^ k) := by
  by_cases hsmall : k < 23
  · exact nears_of_isNear (isNear_tenPower k hsmall)
  · rw [Json.tenPower, Float.ofScientific, dif_neg fun hno => hsmall (by omega), if_neg (by decide)]
    have h := nears_ofModel Nat.one_ne_zero hk
      (by rw [Nat.one_mul]; exact ten_pow_lt_overflow hk)
    rwa [Nat.one_mul] at h

/-! ### Products with powers of ten -/

/-- Rounding to 53 bits makes a number hardly larger. -/
theorem nearest_mul_le (n : Nat) : 2 ^ 53 * nearest n ≤ (2 ^ 53 + 1) * n := by
  by_cases hn : n < 2 ^ 53
  · rw [nearest_of_lt hn]
    exact Nat.mul_le_mul_right n (Nat.le_succ _)
  · have hlog : 52 ≤ n.log2 := (Nat.le_log2 (by omega)).mpr (by omega)
    have hunit : 2 ^ 52 * 2 ^ (n.log2 - 52) ≤ n := by
      rw [← Nat.pow_add, Nat.add_sub_cancel' hlog]
      exact Nat.log2_self_le (by omega)
    have hnearest := nearest_le n
    omega

/-- A number with zero bits after it. -/
@[irreducible] def extended (m s : Nat) : Nat := m * 2 ^ s

theorem mul_le_extended {s l : Nat} (h : s ≤ l) : m * 2 ^ s ≤ extended m l := by
  unfold extended
  exact Nat.mul_le_mul_left m (Nat.pow_le_pow_right (by decide) h)

theorem extended_pos (s : Nat) : 0 < extended 1 s :=
  (Nat.mul_pos Nat.one_pos (Nat.two_pow_pos 0)).trans_le (mul_le_extended (Nat.zero_le s))

theorem extended_add (m s l : Nat) : extended m (s + l) = m * 2 ^ l * extended 1 s := by
  unfold extended
  rw [Nat.add_comm, Nat.pow_add, Nat.mul_assoc, Nat.one_mul]

theorem bits_add (low k : Nat) : bits (low + 1) (low + k) = (2 ^ k - 2) * extended 1 low := by
  unfold bits extended
  rw [Nat.one_mul, Nat.sub_mul, ← Nat.pow_add, ← Nat.pow_add_one', Nat.add_comm k]

/-- Half of what binary64 reaches. -/
@[irreducible] def half : Nat := extended 1 1023

/-- The upper end of the numbers that round to the last number but one. -/
@[irreducible] def ceiling : Nat := extended (2 ^ 55 - 6) 969

/-- What binary64 reaches, half of it and the ceiling in one unit. -/
theorem exists_unit : ∃ u > 0, overflow = (2 ^ 55 - 2) * u ∧ half = 2 ^ 54 * u ∧
    ceiling = (2 ^ 55 - 6) * u := by
  refine ⟨extended 1 969, extended_pos 969, ?_, ?_, ?_⟩
  · unfold overflow
    exact bits_add 969 55
  · unfold half
    exact extended_add 1 969 54
  · unfold ceiling
    exact extended_add _ 969 0

theorem two_pow_le_half {k : Nat} (hk : k < 1024) : 2 ^ k ≤ half := by
  have hle := mul_le_extended (m := 1) (Nat.le_of_lt_succ hk)
  unfold half
  rwa [Nat.one_mul] at hle

theorem mul_half_lt_overflow : (2 ^ 53 + 1) ^ 2 * half < 2 ^ 106 * overflow := by
  obtain ⟨u, hu, hoverflow, hhalf, -⟩ := exists_unit
  rw [hoverflow, hhalf]
  omega

theorem nearest_mul_lt_overflow {k : Nat} (h : n * 10 ^ k ≤ half) :
    nearest n * nearest (10 ^ k) < overflow := by
  refine Nat.lt_of_mul_lt_mul_left (a := 2 ^ 106) (lt_of_le_of_lt ?_ mul_half_lt_overflow)
  calc 2 ^ 106 * (nearest n * nearest (10 ^ k))
      = (2 ^ 53 * nearest n) * (2 ^ 53 * nearest (10 ^ k)) := by ring
    _ ≤ ((2 ^ 53 + 1) * n) * ((2 ^ 53 + 1) * 10 ^ k) :=
      Nat.mul_le_mul (nearest_mul_le n) (nearest_mul_le _)
    _ = (2 ^ 53 + 1) ^ 2 * (n * 10 ^ k) := by ring
    _ ≤ _ := Nat.mul_le_mul_left _ h

theorem mul_le_ceiling {s : Nat} (hs : s < 970) : (2 ^ 55 - 6) * 2 ^ s ≤ ceiling := by
  unfold ceiling
  exact mul_le_extended (Nat.le_of_lt_succ hs)

/-- Below the ceiling a large power of ten leaves room for no more than 53 bits, or for little more
than 53 bits and an even number. -/
theorem ceiling_div : ∀ k < 309, 292 ≤ k → ceiling / 10 ^ k * nearest (10 ^ k) < overflow ∧
    (ceiling / 10 ^ k < 2 ^ 53 ∨ ceiling / 10 ^ k = 17976931348623156) := by decide +kernel

theorem nearest_le_of_le (h : n ≤ 17976931348623156) : nearest n ≤ 17976931348623156 := by
  by_cases hn : n < 2 ^ 53
  · rw [nearest_of_lt hn]
    exact h
  · -- the last of 54 bits is rounded away
    have hlog : n.log2 = 53 := (Nat.log2_eq_iff (by omega)).mpr (by omega)
    have hnearest := nearest_le n
    rw [nearest, hlog] at *
    omega

theorem nearest_mul_lt_overflow_of_ceiling {k : Nat} (hk : 292 ≤ k) (hk' : k ≤ 308)
    (h : n * 10 ^ k ≤ ceiling) : nearest n * nearest (10 ^ k) < overflow := by
  obtain ⟨hproduct, hroom⟩ := ceiling_div k (by omega) hk
  have hn : n ≤ ceiling / 10 ^ k := (Nat.le_div_iff_mul_le (Nat.pow_pos (by decide))).mpr h
  refine lt_of_le_of_lt (Nat.mul_le_mul_right _ ?_) hproduct
  rcases hroom with hroom | hroom
  · rw [nearest_of_lt (by omega)]
    exact hn
  · rw [hroom] at hn ⊢
    exact nearest_le_of_le hn

/-- Zero stays zero. -/
theorem not_isInf_zero_mul {x : Float} (h : Has x m e) : (Float.ofNat 0 * x).isInf = false := by
  obtain ⟨-, -, sign, hm, hx⟩ := h
  have hzero : (Float.ofNat 0).toModel.unpack = .zero .positive := rfl
  show (pack (UnpackedFloat.mul .binary64 (Float.ofNat 0).toModel.unpack
    x.toModel.unpack)).unpack.isInf = false
  rw [hzero, hx]
  show (pack (.zero (.positive * sign))).unpack.isInf = false
  cases sign <;> decide

theorem bounds_lt_overflow : half < overflow ∧ ceiling < overflow := by
  obtain ⟨u, hu, hoverflow, hhalf, hceiling⟩ := exists_unit
  omega

/-- A natural number times a power of ten is not beyond binary64 if it is at most half of that, or
if the power is large and the product not above the ceiling. -/
theorem isSome_multiplied? {k : Nat} (h : n * 10 ^ k ≤ half ∨ 292 ≤ k ∧ n * 10 ^ k ≤ ceiling) :
    (Json.multiplied? (Float.ofNat n) k).isSome = true := by
  obtain ⟨hhalf, hceiling⟩ := bounds_lt_overflow
  have hpower : 0 < 10 ^ k := Nat.pow_pos (by decide)
  by_cases hk : k ≤ 308
  · have hfinite : (Float.ofNat n * Json.tenPower k).isInf = false := by
      rcases Nat.eq_zero_or_pos n with rfl | h0
      · obtain ⟨m, e, hhas, -⟩ := nears_tenPower hk
        exact not_isInf_zero_mul hhas
      · have hle : n ≤ n * 10 ^ k := Nat.le_mul_of_pos_right n hpower
        refine (nears_ofNat h0 (by omega)).not_isInf_mul (nears_tenPower hk) h0 hpower ?_
        rcases h with h | ⟨hlarge, h⟩
        · exact nearest_mul_lt_overflow h
        · exact nearest_mul_lt_overflow_of_ceiling hlarge hk h
    unfold Json.multiplied?
    rw [if_pos (show k ≤ Json.largestPower from hk)]
    dsimp only
    rw [hfinite]
    rfl
  · -- so large a power is only met with zero
    have hzero : n = 0 := by
      by_contra hne
      have hle : 10 ^ k ≤ n * 10 ^ k := Nat.le_mul_of_pos_left _ (Nat.pos_of_ne_zero hne)
      have hlarge := overflow_le_ten_pow (k := k) (by omega)
      omega
    subst hzero
    unfold Json.multiplied?
    rw [if_neg (show ¬k ≤ Json.largestPower from hk)]
    rfl

end LiveRules.Decimal
