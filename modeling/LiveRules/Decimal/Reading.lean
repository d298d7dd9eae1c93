/-!
Reading decimal texts as binary64 numbers, rounded to nearest. The accepted texts are digits with
at most one point and at least one digit, an optional exponent and an optional sign, and the words
`inf`, `infinity` and `nan` in any case.
-/

namespace LiveRules.Decimal

def isDigit (c : Char) : Bool := '0' ≤ c && c ≤ '9'

def digitValue (c : Char) : Nat := c.toNat - '0'.toNat

def valueOf (ds : List Char) : Nat := ds.foldl (fun n c => 10 * n + digitValue c) 0

/-- `coefficient * 10 ^ exponent`, rounded. Exponents far outside the range of binary64 give zero
or infinity at once, so that no power of that size is computed. -/
def rounded (coefficient : Nat) (exponent : Int) : Float :=
  if coefficient = 0 then 0
  else
    let size := exponent + (Nat.toDigits 10 coefficient).length
    if size < -400 then 0
    else if 400 < size then Float.ofScientific 1 false 400
    else Float.ofScientific coefficient (exponent < 0) exponent.natAbs

def signed (negative : Bool) (x : Float) : Float := if negative then -x else x

/-- A sign at the start of a text, and the text after it. -/
def takeSign : List Char → Bool × List Char
  | '-' :: cs => (true, cs)
  | '+' :: cs => (false, cs)
  | cs => (false, cs)

/-- The exponent part, which must end the text. -/
def exponent? : List Char → Option Int
  | [] => some 0
  | c :: cs =>
    if c = 'e' ∨ c = 'E' then
      let (negative, ds) := takeSign cs
      if ds.isEmpty || !ds.all isDigit then none
      else some (if negative then -(valueOf ds : Int) else valueOf ds)
    else none

def unsigned? (cs : List Char) : Option Float :=
  let whole := cs.takeWhile isDigit
  let rest := cs.dropWhile isDigit
  let (fraction, rest) :=
    match rest with
    | '.' :: more => (more.takeWhile isDigit, more.dropWhile isDigit)
    | _ => ([], rest)
  if whole.isEmpty && fraction.isEmpty then none
  else
    (exponent? rest).map fun e => rounded (valueOf (whole ++ fraction)) (e - fraction.length)

def special? (cs : List Char) : Option Float :=
  let word := String.ofList (cs.map Char.toLower)
  if word = "inf" ∨ word = "infinity" then some (1 / 0)
  else if word = "nan" then some (0 / 0)
  else none

/-- The number a text stands for. -/
def read? (cs : List Char) : Option Float :=
  let (negative, rest) := takeSign cs
  ((unsigned? rest).or (special? rest)).map (signed negative)

end LiveRules.Decimal
