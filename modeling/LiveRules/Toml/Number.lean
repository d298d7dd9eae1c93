import LiveRules.Decimal.Reading
import LiveRules.Toml.Space

/-!
Numbers and dates. Underscores may stand between digits. A whole number has no leading zeros and
fits 64 bits with a sign; a number with a fraction or an exponent must not be too large. Dates and
times are checked against the calendar, and only their presence is kept.
-/

namespace LiveRules.Toml

open Decimal (isDigit valueOf)

/-- Digits with single underscores between them. The digits, and the text after them. -/
def digitsFrom (isOne : Char → Bool) : List Char → List Char × List Char
  | [] => ([], [])
  | c :: cs =>
    if isOne c then
      let (ds, rest) := digitsFrom isOne cs
      (c :: ds, rest)
    else
      match c, cs with
      | '_', d :: more =>
        if isOne d then
          let (ds, rest) := digitsFrom isOne more
          (d :: ds, rest)
        else ([], c :: cs)
      | _, _ => ([], c :: cs)

/-- One or more digits; an underscore never comes first. -/
def digits? (isOne : Char → Bool) (cs : List Char) : Option (List Char × List Char) :=
  match cs with
  | c :: _ => if isOne c then some (digitsFrom isOne cs) else none
  | [] => none

/-- A decimal number without leading zeros. -/
def plainDigits? : List Char → Option (List Char × List Char)
  | '0' :: cs => some (['0'], cs)
  | cs => digits? isDigit cs

def fits (n : Int) : Bool := -Int.pow 2 63 ≤ n && n < Int.pow 2 63

def radixValue (radix : Nat) (ds : List Char) : Nat :=
  ds.foldl (fun n c =>
    radix * n + (if isDigit c then Decimal.digitValue c else c.toLower.toNat - 'a'.toNat + 10)) 0

def isHexDigit (c : Char) : Bool :=
  isDigit c || ('a' ≤ c && c ≤ 'f') || ('A' ≤ c && c ≤ 'F')

def radix? : List Char → Option (Nat × (Char → Bool) × List Char)
  | '0' :: 'x' :: cs => some (16, isHexDigit, cs)
  | '0' :: 'o' :: cs => some (8, fun c => '0' ≤ c && c ≤ '7', cs)
  | '0' :: 'b' :: cs => some (2, fun c => c == '0' || c == '1', cs)
  | _ => none

def integer? (cs : List Char) : Option (Int × List Char) := do
  match radix? cs with
  | some (radix, isOne, cs) =>
    let (ds, rest) ← digits? isOne cs
    let n : Int := radixValue radix ds
    if fits n then some (n, rest) else none
  | none =>
    let (negative, cs) := Decimal.takeSign cs
    let (ds, rest) ← plainDigits? cs
    let n : Int := if negative then -(valueOf ds : Int) else valueOf ds
    if fits n then some (n, rest) else none

/-- An exponent, if one starts here: its text without underscores. -/
def exponent? : List Char → Option (List Char × List Char)
  | c :: cs =>
    if c = 'e' ∨ c = 'E' then do
      let (sign, cs) :=
        match cs with
        | '+' :: cs => (['+'], cs)
        | '-' :: cs => (['-'], cs)
        | cs => ([], cs)
      let (ds, rest) ← digits? isDigit cs
      some ('e' :: sign ++ ds, rest)
    else none
  | [] => none

/-- The part after the whole digits of a number that is not whole. -/
def tail? : List Char → Option (List Char × List Char)
  | '.' :: cs => do
    let (ds, rest) ← digits? isDigit cs
    match exponent? rest with
    | some (e, rest) => some ('.' :: ds ++ e, rest)
    | none => some ('.' :: ds, rest)
  | cs => exponent? cs

def special? : List Char → Option (Float × List Char)
  | 'i' :: 'n' :: 'f' :: rest => some (1 / 0, rest)
  | 'n' :: 'a' :: 'n' :: rest => some (0 / 0, rest)
  | _ => none

/-- Numbers below the range become negative infinity; above it they are refused. -/
def float? (cs : List Char) : Option (Float × List Char) :=
  let (negative, unsigned) := Decimal.takeSign cs
  match special? unsigned with
  | some (x, rest) => some (Decimal.signed negative x, rest)
  | none => do
    let (ds, rest) ← plainDigits? unsigned
    let (tail, rest) ← tail? rest
    let x ← Decimal.read? (ds ++ tail)
    if x.isInf && !negative then none else some (Decimal.signed negative x, rest)

/-- Exactly `n` digits, and their value. -/
def field? (n : Nat) (cs : List Char) : Option (Nat × List Char) :=
  let ds := cs.take n
  if ds.length = n ∧ ds.all isDigit then some (valueOf ds, cs.drop n) else none

def ranged? (n low high : Nat) (cs : List Char) : Option (Nat × List Char) :=
  (field? n cs).filter fun x => low ≤ x.1 && x.1 ≤ high

def char (c : Char) : List Char → Option (List Char)
  | [] => none
  | d :: cs => if c = d then some cs else none

def daysIn (year month : Nat) : Nat :=
  if month = 2 then
    if year % 4 = 0 ∧ (year % 100 ≠ 0 ∨ year % 400 = 0) then 29 else 28
  else if month = 4 ∨ month = 6 ∨ month = 9 ∨ month = 11 then 30
  else 31

def day? (cs : List Char) : Option (List Char) := do
  let (year, cs) ← field? 4 cs
  let cs ← char '-' cs
  let (month, cs) ← ranged? 2 1 12 cs
  let cs ← char '-' cs
  let (_, cs) ← ranged? 2 1 (daysIn year month) cs
  some cs

def hour? (cs : List Char) : Option (List Char) := do
  let (_, cs) ← ranged? 2 0 23 cs
  char ':' cs

/-- The rest of a time after the hour. -/
def minutes? (cs : List Char) : Option (List Char) := do
  let (_, cs) ← ranged? 2 0 59 cs
  let cs ← char ':' cs
  let (_, cs) ← ranged? 2 0 60 cs
  match cs with
  | '.' :: d :: more => if isDigit d then some (more.dropWhile isDigit) else some cs
  | cs => some cs

/-- An offset from universal time, or nothing. -/
def offset? : List Char → Option (List Char)
  | [] => some []
  | c :: cs =>
    if c = 'Z' ∨ c = 'z' then some cs
    else if c = '+' ∨ c = '-' then do
      let cs ← hour? cs
      let (_, cs) ← ranged? 2 0 59 cs
      some cs
    else some (c :: cs)

/-- A date, a time or both. -/
def date? (cs : List Char) : Option (List Char) :=
  match hour? cs with
  | some rest => minutes? rest
  | none => do
    let rest ← day? cs
    match rest with
    | [] => some []
    | c :: cs =>
      if c = 'T' ∨ c = 't' ∨ c = ' ' then
        match hour? cs with
        | some cs => (minutes? cs).bind offset?
        | none => some (c :: cs)
      else some (c :: cs)

/-- Whether a text starts as dates and times do, so that it cannot be a number. -/
def startsDate (cs : List Char) : Bool :=
  (hour? cs).isSome || ((field? 4 cs).bind fun x => char '-' x.2).isSome

end LiveRules.Toml
