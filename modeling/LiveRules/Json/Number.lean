import LiveRules.Decimal.Text
import LiveRules.Decimal.Reading

/-!
Number literals of JSON. `Literal.take?` cuts a literal off a text; `value?` is the binary64
number that a literal stands for.

The value is a product: the first digits that fit 64 bits, as a binary64 number, times or over a
power of ten, each step rounded. It may therefore differ from the nearest number in its last bit.
-/

namespace LiveRules.Json

open LiveRules.Decimal

/-- The pieces of a number literal. -/
structure Literal where
  negative : Bool
  whole : List Char
  fraction : Option (List Char)
  exponent : Option (Bool × List Char)
  deriving DecidableEq

def takeDigits? (cs : List Char) : Option (List Char × List Char) :=
  match cs.takeWhile isDigit with
  | [] => none
  | ds => some (ds, cs.dropWhile isDigit)

/-- A zero stands alone in front of the point. -/
def takeWhole? (cs : List Char) : Option (List Char × List Char) :=
  match takeDigits? cs with
  | some ('0' :: _ :: _, _) => none
  | other => other

def takeFraction? : List Char → Option (Option (List Char) × List Char)
  | '.' :: cs => (takeDigits? cs).map fun (ds, rest) => (some ds, rest)
  | cs => some (none, cs)

def takeExponent? : List Char → Option (Option (Bool × List Char) × List Char)
  | c :: cs =>
    if c = 'e' ∨ c = 'E' then
      (takeDigits? (takeSign cs).2).map fun (ds, rest) => (some ((takeSign cs).1, ds), rest)
    else some (none, c :: cs)
  | [] => some (none, [])

def takeMinus : List Char → Bool × List Char
  | '-' :: cs => (true, cs)
  | cs => (false, cs)

def Literal.take? (cs : List Char) : Option (Literal × List Char) := do
  let (negative, cs) := takeMinus cs
  let (whole, cs) ← takeWhole? cs
  let (fraction, cs) ← takeFraction? cs
  let (exponent, cs) ← takeExponent? cs
  some (⟨negative, whole, fraction, exponent⟩, cs)

def wordLimit : Nat := Nat.pow 2 64

/-- The significand of leading digits while it fits 64 bits, and how many digits were taken. -/
def takeSignificand (n taken : Nat) : List Char → Nat × Nat
  | [] => (n, taken)
  | c :: cs =>
    if 10 * n + digitValue c < wordLimit then takeSignificand (10 * n + digitValue c) (taken + 1) cs
    else (n, taken)

def tenPower (n : Nat) : Float := Float.ofScientific 1 false n

def largestPower : Nat := 308

/-- Divides by a power of ten, in steps where the power is beyond binary64. -/
def divided (x : Float) (e : Nat) : Float :=
  if _h : e ≤ largestPower then x / tenPower e
  else if x == 0 then x
  else divided (x / tenPower largestPower) (e - largestPower)
termination_by e
decreasing_by simp only [largestPower] at *; omega

/-- Multiplies by a power of ten; `none` when the product is beyond binary64. -/
def multiplied? (x : Float) (e : Nat) : Option Float :=
  if e ≤ largestPower then
    let y := x * tenPower e
    if y.isInf then none else some y
  else if x == 0 then some x else none

def scaled? (significand : Nat) (exponent : Int) : Option Float :=
  if 0 ≤ exponent then multiplied? (Float.ofNat significand) exponent.natAbs
  else some (divided (Float.ofNat significand) exponent.natAbs)

/-- Written exponents above this count as endless. -/
def exponentLimit : Nat := Nat.pow 2 31 - 1

/-- The exponent that the point and the left out digits contribute. -/
def Literal.significand (l : Literal) : Nat × Int :=
  let (n, taken) := takeSignificand 0 0 l.whole
  let (m, places) := takeSignificand n 0 (l.fraction.getD [])
  (m, (l.whole.length - taken : Nat) - (places : Int))

def Literal.magnitude? (l : Literal) : Option Float :=
  let (n, e) := l.significand
  match l.exponent with
  | none => if l.fraction.isNone ∧ e = 0 then some (Float.ofNat n) else scaled? n e
  | some (negative, ds) =>
    let written := valueOf ds
    if exponentLimit < written then if n ≠ 0 ∧ !negative then none else some 0
    else scaled? n (if negative then e - written else e + written)

/-- The number a literal stands for, if binary64 reaches that far. -/
def Literal.value? (l : Literal) : Option Float := l.magnitude?.map (signed l.negative)

/-- The integer a literal stands for, if it is written as one and fits 64 bits. -/
def Literal.integer? (l : Literal) : Option Int :=
  let n := valueOf l.whole
  if l.fraction.isSome || l.exponent.isSome then none
  else if l.negative then if n = 0 ∨ Nat.pow 2 63 < n then none else some (-n)
  else if n < wordLimit then some n else none

/-- The number that a complete text stands for. -/
def number? (text : List Char) : Option Float :=
  match Literal.take? text with
  | some (l, []) => l.value?
  | _ => none

end LiveRules.Json
