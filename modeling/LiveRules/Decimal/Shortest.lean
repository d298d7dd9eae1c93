/-!
The shortest decimal digits that a binary64 number is read back from.

A finite number is `mantissa * 2 ^ exponent`; every such number is also an integer times a power
of ten. The numbers that round to it form an interval around it, and the shortest digits are found
by leaving out as many last digits as the interval allows, taking the nearer of the two
neighbours on the coarser grid.
-/

namespace LiveRules.Decimal

/-- The magnitude of a finite binary64 number. -/
structure Binary where
  mantissa : Nat
  exponent : Int
  deriving DecidableEq

def Binary.ofBits (bits : UInt64) : Binary :=
  let field := ((bits >>> 52) &&& 0x7FF).toNat
  let fraction := (bits &&& 0xFFFFFFFFFFFFF).toNat
  if field = 0 then ⟨fraction, -1074⟩ else ⟨fraction + Nat.pow 2 52, field - 1075⟩

/-- Digits, the highest first, standing for `digits * 10 ^ exponent`. -/
structure Digits where
  coefficient : Nat
  exponent : Int
  deriving DecidableEq

/-- Which of two equally near neighbours is taken. -/
inductive Tie
  | up
  | even
  deriving DecidableEq

/-- The number and the ends of its interval on a common decimal grid. -/
structure Interval where
  low : Nat
  value : Nat
  high : Nat
  closed : Bool
  exponent : Int

/-- A power of two is nearer to its lower neighbour than to its upper one, except at the bottom. -/
def Interval.around (b : Binary) : Interval :=
  let below := if b.mantissa = Nat.pow 2 52 ∧ b.exponent ≠ -1074 then 1 else 2
  let quarter := b.exponent - 2
  let scale := if quarter < 0 then Nat.pow 5 quarter.natAbs else Nat.pow 2 quarter.natAbs
  { low := (4 * b.mantissa - below) * scale
    value := 4 * b.mantissa * scale
    high := (4 * b.mantissa + 2) * scale
    closed := b.mantissa % 2 == 0
    exponent := min quarter 0 }

def Interval.holds (i : Interval) (n : Nat) : Bool :=
  if i.closed then i.low ≤ n && n ≤ i.high else i.low < n && n < i.high

/-- The nearer neighbour on the grid without the last `dropped` digits, if one is inside. -/
def Interval.neighbour? (i : Interval) (tie : Tie) (dropped : Nat) : Option Nat :=
  let step := Nat.pow 10 dropped
  let below := i.value / step
  let fitsBelow := 0 < below && i.holds (below * step)
  let fitsAbove := i.holds ((below + 1) * step)
  let rest := 2 * (i.value - below * step)
  let takesAbove :=
    fitsAbove && (!fitsBelow || rest > step || (rest == step && (tie == .up || below % 2 == 1)))
  if takesAbove then some (below + 1) else if fitsBelow then some below else none

def Interval.shorten (i : Interval) (tie : Tie) : Nat → Digits
  | 0 => ⟨i.value, i.exponent⟩
  | dropped + 1 =>
    match i.neighbour? tie (dropped + 1) with
    | some n => ⟨n, i.exponent + (dropped + 1 : Nat)⟩
    | none => i.shorten tie dropped

def digitCount (n : Nat) : Nat := (Nat.toDigits 10 n).length

/-- Moves factors of ten from the coefficient to the exponent. -/
def Digits.normal (d : Digits) : Digits :=
  if h : 0 < d.coefficient ∧ d.coefficient % 10 = 0 then
    Digits.normal ⟨d.coefficient / 10, d.exponent + 1⟩
  else d
termination_by d.coefficient
decreasing_by exact Nat.div_lt_self h.1 (by decide)

/-- The shortest digits of a positive number. -/
def shortest (tie : Tie) (b : Binary) : Digits :=
  let i := Interval.around b
  (i.shorten tie (digitCount i.value)).normal

end LiveRules.Decimal
