import LiveRules.Text.Utf8

/-!
Escapes in texts, and the formats of `printf`: a format is used again as long as arguments are left.
-/

namespace LiveRules.Shell

open Text (Bytes)

def octalDigit? (c : Char) : Option Nat :=
  if '0' ≤ c ∧ c ≤ '7' then some (c.toNat - '0'.toNat) else none

/-- At most `n` octal digits as a number, and the text after them. -/
def octal : Nat → Nat → List Char → Nat × List Char
  | 0, value, cs => (value, cs)
  | _, value, [] => (value, [])
  | n + 1, value, c :: cs =>
    match octalDigit? c with
    | some digit => octal n (8 * value + digit) cs
    | none => (value, c :: cs)

def bytesOf (cs : List Char) : Bytes := Text.encode (.ofList cs)

def byte (n : Nat) : Bytes := ⟨#[UInt8.ofNat n]⟩

/-- An escape after its backslash. -/
def escape (zeroLeads : Bool) (cs : List Char) : Bytes × List Char :=
  match cs with
  | [] => (bytesOf ['\\'], [])
  | 'n' :: rest => (byte 10, rest)
  | 't' :: rest => (byte 9, rest)
  | 'r' :: rest => (byte 13, rest)
  | 'a' :: rest => (byte 7, rest)
  | 'b' :: rest => (byte 8, rest)
  | 'f' :: rest => (byte 12, rest)
  | 'v' :: rest => (byte 11, rest)
  | '\\' :: rest => (byte 92, rest)
  | c :: rest =>
    if zeroLeads then
      if c = '0' then
        let (n, rest) := octal 3 0 rest
        (byte n, rest)
      else (bytesOf ['\\', c], rest)
    else if (octalDigit? c).isSome then
      let (n, rest) := octal 3 0 cs
      (byte n, rest)
    else (bytesOf ['\\', c], rest)

/-- A text with its escapes, as `echo` writes it. -/
def unescaped : Nat → List Char → Bytes
  | 0, _ => ByteArray.empty
  | _, [] => ByteArray.empty
  | fuel + 1, c :: cs =>
    if c = '\\' then
      let (bytes, rest) := escape true cs
      bytes ++ unescaped fuel rest
    else bytesOf [c] ++ unescaped fuel cs

/-- One pass over a format: the output, and the arguments that are left. -/
def formatOnce : Nat → List Char → List String → Bytes × List String
  | 0, _, args => (ByteArray.empty, args)
  | _, [], args => (ByteArray.empty, args)
  | fuel + 1, c :: cs, args =>
    let (bytes, rest, args) :=
      match c, cs with
      | '\\', cs =>
        let (bytes, rest) := escape false cs
        (bytes, rest, args)
      | '%', '%' :: rest => (byte 37, rest, args)
      | '%', d :: rest =>
        let arg := args.head?.getD ""
        let bytes :=
          if d = 's' then Text.encode arg
          else if d = 'b' then unescaped (arg.length + 1) arg.toList
          else if d = 'c' then bytesOf (arg.toList.take 1)
          else if d = 'd' then Text.encode (if arg.isEmpty then "0" else arg)
          else bytesOf ['%', d]
        (bytes, rest, args.drop 1)
      | c, cs => (bytesOf [c], cs, args)
    let (more, args) := formatOnce fuel rest args
    (bytes ++ more, args)

/-- The format is used again as long as arguments are left. -/
def format : Nat → List Char → List String → Bytes
  | 0, _, _ => ByteArray.empty
  | fuel + 1, template, args =>
    let (bytes, left) := formatOnce (template.length + 1) template args
    if left.isEmpty || left.length = args.length then bytes else bytes ++ format fuel template left

end LiveRules.Shell
