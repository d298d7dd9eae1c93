/-!
Reading bytes as text. `decode?` takes well-formed UTF-8 only; `decodeLossy` puts U+FFFD for each
longest run of bytes that starts a character but does not finish it.
-/

namespace LiveRules.Text

abbrev Bytes := ByteArray

def decode? (bytes : Bytes) : Option String := String.fromUTF8? bytes

def encode (s : String) : Bytes := s.toUTF8

def isTail (b : UInt8) : Bool := 0x80 ≤ b && b ≤ 0xBF

def tailBits (b : UInt8) : Nat := (b &&& 0x3F).toNat

/-- Whether the second byte may follow the first in a character of three or four bytes. -/
def secondFits (first second : UInt8) : Bool :=
  if first = 0xE0 then 0xA0 ≤ second && second ≤ 0xBF
  else if first = 0xED then 0x80 ≤ second && second ≤ 0x9F
  else if first = 0xF0 then 0x90 ≤ second && second ≤ 0xBF
  else if first = 0xF4 then 0x80 ≤ second && second ≤ 0x8F
  else isTail second

def replacement : Char := '\uFFFD'

/-- The first character of some bytes and how many further bytes it takes up. -/
def firstChar (b : UInt8) (rest : List UInt8) : Char × Nat :=
  if b < 0x80 then (Char.ofNat b.toNat, 0)
  else if 0xC2 ≤ b && b ≤ 0xDF then
    match rest with
    | c :: _ =>
      if isTail c then (Char.ofNat ((b &&& 0x1F).toNat * 64 + tailBits c), 1) else (replacement, 0)
    | [] => (replacement, 0)
  else if 0xE0 ≤ b && b ≤ 0xEF then
    match rest with
    | c :: d :: _ =>
      if !secondFits b c then (replacement, 0)
      else if isTail d then
        (Char.ofNat (((b &&& 0x0F).toNat * 64 + tailBits c) * 64 + tailBits d), 2)
      else (replacement, 1)
    | [c] => (replacement, if secondFits b c then 1 else 0)
    | [] => (replacement, 0)
  else if 0xF0 ≤ b && b ≤ 0xF4 then
    match rest with
    | c :: d :: e :: _ =>
      if !secondFits b c then (replacement, 0)
      else if !isTail d then (replacement, 1)
      else if isTail e then
        let high := (b &&& 0x07).toNat * 64 + tailBits c
        (Char.ofNat ((high * 64 + tailBits d) * 64 + tailBits e), 3)
      else (replacement, 2)
    | [c, d] => (replacement, if !secondFits b c then 0 else if isTail d then 2 else 1)
    | [c] => (replacement, if secondFits b c then 1 else 0)
    | [] => (replacement, 0)
  else (replacement, 0)

def decodeFrom : Nat → List UInt8 → List Char
  | _, [] => []
  | skip + 1, _ :: rest => decodeFrom skip rest
  | 0, b :: rest => (firstChar b rest).1 :: decodeFrom (firstChar b rest).2 rest

def decodeLossy (bytes : Bytes) : String := .ofList (decodeFrom 0 bytes.toList)

end LiveRules.Text
