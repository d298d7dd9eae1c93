import LiveRules.Json.Basic
import LiveRules.Json.Number

/-!
Reading JSON documents. `parse?` takes a whole text. Recursion counts down a number that is larger
than what the text can use up, since each step takes a character or opens a list of items.
-/

namespace LiveRules.Json

open LiveRules.Decimal

def isSpace (c : Char) : Bool := c == ' ' || c == '\n' || c == '\t' || c == '\r'

def skipSpace (cs : List Char) : List Char := cs.dropWhile isSpace

def hexValue? (c : Char) : Option Nat :=
  if '0' ≤ c && c ≤ '9' then some (c.toNat - '0'.toNat)
  else if 'a' ≤ c && c ≤ 'f' then some (c.toNat - 'a'.toNat + 10)
  else if 'A' ≤ c && c ≤ 'F' then some (c.toNat - 'A'.toNat + 10)
  else none

def hexNumber? (a b c d : Char) : Option Nat := do
  let a ← hexValue? a
  let b ← hexValue? b
  let c ← hexValue? c
  let d ← hexValue? d
  some (((a * 16 + b) * 16 + c) * 16 + d)

/-- A character of a text, or a code unit that an escape names. -/
inductive Piece where
  | char (c : Char)
  | unit (n : Nat)

def shortEscape? (c : Char) : Option Char :=
  if c = '"' then some '"'
  else if c = '\\' then some '\\'
  else if c = '/' then some '/'
  else if c = 'b' then some '\x08'
  else if c = 'f' then some '\x0c'
  else if c = 'n' then some '\n'
  else if c = 'r' then some '\r'
  else if c = 't' then some '\t'
  else none

/-- The pieces up to the closing quote, and the text after it. -/
def takePieces? : List Char → Option (List Piece × List Char)
  | [] => none
  | '"' :: cs => some ([], cs)
  | '\\' :: 'u' :: a :: b :: c :: d :: cs => do
    let n ← hexNumber? a b c d
    let (rest, cs) ← takePieces? cs
    some (.unit n :: rest, cs)
  | '\\' :: c :: cs => do
    let e ← shortEscape? c
    let (rest, cs) ← takePieces? cs
    some (.char e :: rest, cs)
  | c :: cs =>
    if c.val < 32 then none
    else do
      let (rest, cs) ← takePieces? cs
      some (.char c :: rest, cs)

def isHigh (n : Nat) : Bool := 0xD800 ≤ n && n < 0xDC00

def isLow (n : Nat) : Bool := 0xDC00 ≤ n && n < 0xE000

/-- The characters of some pieces. A high and a low surrogate make one character together; neither
is one alone. -/
def charsOf? : List Piece → Option (List Char)
  | [] => some []
  | .char c :: rest => (charsOf? rest).map (c :: ·)
  | .unit h :: .unit l :: rest =>
    if isHigh h then
      if isLow l then
        (charsOf? rest).map (Char.ofNat (0x10000 + (h - 0xD800) * 0x400 + (l - 0xDC00)) :: ·)
      else none
    else if isLow h then none
    else (charsOf? (.unit l :: rest)).map (Char.ofNat h :: ·)
  | .unit n :: rest =>
    if isHigh n || isLow n then none else (charsOf? rest).map (Char.ofNat n :: ·)

def takeText? (cs : List Char) : Option (Option String × List Char) := do
  let (pieces, cs) ← takePieces? cs
  some ((charsOf? pieces).map String.ofList, cs)

/-- Cuts a word off a text. -/
def afterWord? : List Char → List Char → Option (List Char)
  | [], cs => some cs
  | _, [] => none
  | w :: ws, c :: cs => if w = c then afterWord? ws cs else none

def takeNumber? (cs : List Char) : Option (Json × List Char) := do
  let (_, rest) ← Literal.take? cs
  some (.number (.ofList (cs.take (cs.length - rest.length))), rest)

mutual

def takeValue? : Nat → List Char → Option (Json × List Char)
  | 0, _ => none
  | fuel + 1, cs =>
    match skipSpace cs with
    | [] => none
    | '"' :: cs => (takeText? cs).map fun (t, cs) => (.text t, cs)
    | '[' :: cs =>
      match skipSpace cs with
      | ']' :: cs => some (.array [], cs)
      | cs => (takeItems? fuel cs).map fun (items, cs) => (.array items, cs)
    | '\x7b' :: cs =>
      match skipSpace cs with
      | '\x7d' :: cs => some (.object [], cs)
      | cs => (takeMembers? fuel cs).map fun (members, cs) => (.object members, cs)
    | 'n' :: cs => (afterWord? ['u', 'l', 'l'] cs).map (.null, ·)
    | 't' :: cs => (afterWord? ['r', 'u', 'e'] cs).map (.bool true, ·)
    | 'f' :: cs => (afterWord? ['a', 'l', 's', 'e'] cs).map (.bool false, ·)
    | cs => takeNumber? cs

/-- One or more items and the closing bracket. -/
def takeItems? : Nat → List Char → Option (List Json × List Char)
  | 0, _ => none
  | fuel + 1, cs =>
    match takeValue? fuel cs with
    | none => none
    | some (item, cs) =>
      match skipSpace cs with
      | ']' :: cs => some ([item], cs)
      | ',' :: cs => (takeItems? fuel cs).map fun (items, cs) => (item :: items, cs)
      | _ => none

/-- One or more members and the closing brace. -/
def takeMembers? : Nat → List Char → Option (List (Option String × Json) × List Char)
  | 0, _ => none
  | fuel + 1, cs =>
    match skipSpace cs with
    | '"' :: cs =>
      match takeText? cs with
      | none => none
      | some (key, cs) =>
        match skipSpace cs with
        | ':' :: cs =>
          match takeValue? fuel cs with
          | none => none
          | some (value, cs) =>
            match skipSpace cs with
            | '\x7d' :: cs => some ([(key, value)], cs)
            | ',' :: cs =>
              (takeMembers? fuel cs).map fun (members, cs) => ((key, value) :: members, cs)
            | _ => none
        | _ => none
    | _ => none

end

/-- The document that a whole text is. -/
def parseChars? (cs : List Char) : Option Json :=
  match takeValue? (2 * cs.length + 2) cs with
  | some (json, rest) => if (skipSpace rest).isEmpty then some json else none
  | none => none

def parse? (s : String) : Option Json := parseChars? s.toList

end LiveRules.Json
