import LiveRules.Toml.Space

/-!
Quoted texts. A text between double quotes may hold escapes, one between single quotes holds what
it shows. Between three quotes a text may go over several lines: a line end right after the
opening is left out, and a backslash at the end of a line takes away the white space up to the next
character.

Both kinds are read one character at a time by machines with a small state.
-/

namespace LiveRules.Toml

/-- Puts a character in front of what a reader gives. -/
def push (c : Char) : Reading (List Char) → Reading (List Char)
  | .ok (cs, rest) => .ok (c :: cs, rest)
  | .error rest => .error rest

def pushAll (front : List Char) : Reading (List Char) → Reading (List Char)
  | .ok (cs, rest) => .ok (front ++ cs, rest)
  | .error rest => .error rest

def hexValue? (c : Char) : Option Nat :=
  if '0' ≤ c ∧ c ≤ '9' then some (c.toNat - '0'.toNat)
  else if 'a' ≤ c ∧ c ≤ 'f' then some (c.toNat - 'a'.toNat + 10)
  else if 'A' ≤ c ∧ c ≤ 'F' then some (c.toNat - 'A'.toNat + 10)
  else none

def char? (n : Nat) : Option Char := if n.isValidChar then some (.ofNat n) else none

/-- What a single letter after a backslash stands for. -/
def escaped? (c : Char) : Option Char :=
  if c = 'b' then some '\x08'
  else if c = 'f' then some '\x0c'
  else if c = 'n' then some '\n'
  else if c = 'r' then some '\r'
  else if c = 't' then some '\t'
  else if c = '\\' then some '\\'
  else if c = '"' then some '"'
  else none

/-- How many digits follow a letter that announces a code point. -/
def codeLength? (c : Char) : Option Nat :=
  if c = 'u' then some 4 else if c = 'U' then some 8 else none

inductive Basic where
  | plain
  /-- After a backslash. -/
  | opened
  /-- Inside a code point, `left + 1` digits before its end. -/
  | code (left value : Nat)

/-- A text between double quotes, from the character after the opening quote on. -/
def basic : Basic → List Char → Reading (List Char)
  | _, [] => .error []
  | .plain, c :: cs =>
    if c = '"' then .ok ([], cs)
    else if c = '\\' then basic .opened cs
    else if isVisible c then push c (basic .plain cs)
    else .error (c :: cs)
  | .opened, c :: cs =>
    match escaped? c, codeLength? c with
    | some e, _ => push e (basic .plain cs)
    | none, some n => basic (.code (n - 1) 0) cs
    | none, none => .error cs
  | .code left value, c :: cs =>
    match hexValue? c with
    | none => .error (c :: cs)
    | some digit =>
      match left with
      | left + 1 => basic (.code left (16 * value + digit)) cs
      | 0 =>
        match char? (16 * value + digit) with
        | some e => push e (basic .plain cs)
        | none => .error (c :: cs)

/-- A text between single quotes, from the character after the opening quote on. -/
def literal : List Char → Reading (List Char)
  | [] => .error []
  | c :: cs =>
    if c = '\'' then .ok ([], cs)
    else if isVisible c then push c (literal cs)
    else .error (c :: cs)

inductive Lines where
  | plain
  | opened
  | code (left value : Nat)
  /-- After a backslash and blanks, before the line end that must follow. -/
  | gap
  /-- After a backslash and a line end. -/
  | fold
  /-- After some quotes. -/
  | quotes (n : Nat)

/-- Whether the next character goes on with the text, and which quotes before it belong to it. -/
def Lines.kept? (quote : Char) : Lines → Char → Option (List Char)
  | .plain, _ => some []
  | .fold, c => if isSpace c || c == '\n' || c == '\r' then none else some []
  | .quotes n, c => if c ≠ quote ∧ n < 3 then some (List.replicate n quote) else none
  | _, _ => none

/-- The end of a text inside which `n` quotes have just been read. -/
def closed (quote : Char) (n : Nat) (rest : List Char) : Reading (List Char) :=
  if 3 ≤ n then .ok (List.replicate (n - 3) quote, rest) else .error rest

/-- Whether a carriage return stands before a line feed. -/
def isLineEnd (c : Char) (cs : List Char) : Bool :=
  c == '\n' || (c == '\r' && cs.head? == some '\n')

/-- A text between three double quotes. -/
def basicLines : Lines → List Char → Reading (List Char)
  | .quotes n, [] => closed '"' n []
  | _, [] => .error []
  | state, c :: cs =>
    match state.kept? '"' c with
    | some kept =>
      if c = '"' then basicLines (.quotes 1) cs
      else if c = '\\' then pushAll kept (basicLines .opened cs)
      else if c = '\n' then pushAll kept (push c (basicLines .plain cs))
      else if isLineEnd c cs then pushAll kept (basicLines .plain cs)
      else if isVisible c then pushAll kept (push c (basicLines .plain cs))
      else .error (c :: cs)
    | none =>
      match state with
      | .plain => .error (c :: cs)
      | .opened =>
        match escaped? c, codeLength? c with
        | some e, _ => push e (basicLines .plain cs)
        | none, some n => basicLines (.code (n - 1) 0) cs
        | none, none =>
          if c = '\n' then basicLines .fold cs
          else if isSpace c || isLineEnd c cs then basicLines .gap cs
          else .error cs
      | .code left value =>
        match hexValue? c with
        | none => .error (c :: cs)
        | some digit =>
          match left with
          | left + 1 => basicLines (.code left (16 * value + digit)) cs
          | 0 =>
            match char? (16 * value + digit) with
            | some e => push e (basicLines .plain cs)
            | none => .error (c :: cs)
      | .gap =>
        if c = '\n' then basicLines .fold cs
        else if isSpace c || isLineEnd c cs then basicLines .gap cs
        else .error (c :: cs)
      | .fold =>
        if isSpace c || isLineEnd c cs then basicLines .fold cs else .error (c :: cs)
      | .quotes n =>
        if c ≠ '"' then closed '"' n (c :: cs)
        else if n = 4 then .ok (['"', '"'], cs)
        else basicLines (.quotes (n + 1)) cs

/-- A text between three single quotes. -/
def literalLines : Lines → List Char → Reading (List Char)
  | .quotes n, [] => closed '\'' n []
  | _, [] => .error []
  | state, c :: cs =>
    match state.kept? '\'' c with
    | some kept =>
      if c = '\'' then literalLines (.quotes 1) cs
      else if c = '\n' then pushAll kept (push c (literalLines .plain cs))
      else if isLineEnd c cs then pushAll kept (literalLines .plain cs)
      else if isVisible c then pushAll kept (push c (literalLines .plain cs))
      else .error (c :: cs)
    | none =>
      match state with
      | .quotes n =>
        if c ≠ '\'' then closed '\'' n (c :: cs)
        else if n = 4 then .ok (['\'', '\''], cs)
        else literalLines (.quotes (n + 1)) cs
      | _ => .error (c :: cs)

/-- Leaves out a line end at the start. -/
def skipFirstLine (cs : List Char) : List Char := (afterNewline? cs).getD cs

/-- A quoted text, if one starts here. -/
def quoted? : List Char → Option (Reading (List Char))
  | '"' :: '"' :: '"' :: cs => some (basicLines .plain (skipFirstLine cs))
  | '"' :: cs => some (basic .plain cs)
  | '\'' :: '\'' :: '\'' :: cs => some (literalLines .plain (skipFirstLine cs))
  | '\'' :: cs => some (literal cs)
  | _ => none

end LiveRules.Toml
