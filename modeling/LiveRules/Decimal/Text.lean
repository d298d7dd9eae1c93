import LiveRules.Decimal.Shortest

/-!
Writing binary64 numbers. A `Layout` says in which range of exponents a number is written
positionally, whether a whole number keeps its point, and how the remaining choices fall.
-/

namespace LiveRules.Decimal

structure Layout where
  tie : Tie
  /-- The exponents of the first digit between which no `e` is written; `none` for no limit. -/
  positional : Option (Int × Int)
  /-- Whether a whole number ends in `.0`. -/
  keepsPoint : Bool
  /-- Whether a positive exponent has a sign. -/
  signsExponent : Bool

/-- Thresholds in messages: no exponent, no point on a whole number. -/
def plain : Layout := ⟨.up, none, false, false⟩

/-- Numbers as documents spell them: no exponent, always a point. -/
def pointed : Layout := ⟨.up, none, true, false⟩

/-- Numbers of events: positional from 0.0001 to below 10^16. -/
def exact : Layout := ⟨.up, some (-4, 15), true, false⟩

/-- Numbers in stored units: positional from 0.00001 to below 10^16, signed exponents. -/
def stored : Layout := ⟨.even, some (-5, 15), true, true⟩

def zeros (n : Nat) : List Char := List.replicate n '0'

/-- Digits with a point after the first `place` of them. -/
def placePoint (layout : Layout) (ds : List Char) (place : Int) : List Char :=
  if place ≤ 0 then '0' :: '.' :: zeros place.natAbs ++ ds
  else if ds.length ≤ place.natAbs then
    ds ++ zeros (place.natAbs - ds.length) ++ (if layout.keepsPoint then ['.', '0'] else [])
  else ds.take place.natAbs ++ '.' :: ds.drop place.natAbs

def scientific (layout : Layout) (ds : List Char) (exponent : Int) : List Char :=
  let sign := if exponent < 0 then ['-'] else if layout.signsExponent then ['+'] else []
  ds.take 1 ++ (if ds.length ≤ 1 then [] else '.' :: ds.drop 1) ++
    'e' :: sign ++ Nat.toDigits 10 exponent.natAbs

def Layout.magnitude (layout : Layout) (b : Binary) : List Char :=
  if b.mantissa = 0 then if layout.keepsPoint then ['0', '.', '0'] else ['0']
  else
    let d := shortest layout.tie b
    let ds := Nat.toDigits 10 d.coefficient
    let place := d.exponent + ds.length
    match layout.positional with
    | none => placePoint layout ds place
    | some (low, high) =>
      if low ≤ place - 1 ∧ place - 1 ≤ high then placePoint layout ds place
      else scientific layout ds (place - 1)

def isNegative (x : Float) : Bool := (x.toBits >>> 63) == 1

def Layout.write (layout : Layout) (x : Float) : String :=
  if x.isNaN then "NaN"
  else
    let sign := if isNegative x then ['-'] else []
    if x.isInf then .ofList (sign ++ ['i', 'n', 'f'])
    else .ofList (sign ++ layout.magnitude (Binary.ofBits x.toBits))

end LiveRules.Decimal
