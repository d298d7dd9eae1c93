/-!
Words of shell scripts. A word is made of pieces: texts and parameters, each quoted or not. A
script is cut into words and operators; a comment reaches to the end of its line.
-/

namespace LiveRules.Shell

inductive Piece where
  | text (chars : List Char) (isQuoted : Bool)
  | parameter (name : String) (isQuoted : Bool)
  deriving DecidableEq, Inhabited

abbrev Word := List Piece

inductive Token where
  | word (w : Word)
  /-- A line end or a semicolon. -/
  | stop (isLine : Bool)
  | andThen
  | orElse
  /-- Output to a file, which is emptied first or not. -/
  | toFile (fd : Nat) (appends : Bool)
  /-- Output to where another one goes. -/
  | toOther (fd other : Nat)
  deriving DecidableEq, Inhabited

def isNameChar (c : Char) : Bool := c.isAlphanum || c == '_'

def isBreak (c : Char) : Bool :=
  c == ' ' || c == '\t' || c == '\n' || c == ';' || c == '&' || c == '|' || c == '<' || c == '>'

/-- The parameter after a dollar sign, which stands for itself when there is none. -/
def parameter (isQuoted : Bool) (cs : List Char) : Piece × List Char :=
  match cs with
  | '\x7b' :: rest =>
    (.parameter (.ofList (rest.takeWhile (· ≠ '\x7d'))) isQuoted,
      (rest.dropWhile (· ≠ '\x7d')).drop 1)
  | c :: rest =>
    if c == '#' || c == '@' || c == '*' || c == '?' || c == '$' || c.isDigit then
      (.parameter (.singleton c) isQuoted, rest)
    else if isNameChar c then
      (.parameter (.ofList (cs.takeWhile isNameChar)) isQuoted, cs.dropWhile isNameChar)
    else (.text ['$'] isQuoted, cs)
  | [] => (.text ['$'] isQuoted, [])

/-- The pieces up to a closing double quote, and the text after it. -/
def doubleQuoted : Nat → List Char → List Piece × List Char
  | 0, cs => ([], cs)
  | _, [] => ([], [])
  | fuel + 1, c :: cs =>
    if c = '"' then ([], cs)
    else
      let (piece, rest) :=
        if c = '$' then parameter true cs
        else
          match c, cs with
          | '\\', d :: more =>
            if d = '"' ∨ d = '\\' ∨ d = '$' ∨ d.val = 96 then (Piece.text [d] true, more)
            else if d = '\n' then (Piece.text [] true, more)
            else (Piece.text ['\\', d] true, more)
          | _, _ => (Piece.text [c] true, cs)
      let (pieces, rest) := doubleQuoted fuel rest
      (piece :: pieces, rest)

/-- A word and the text after it. -/
def takeWord : Nat → List Char → Word × List Char
  | 0, cs => ([], cs)
  | _, [] => ([], [])
  | fuel + 1, c :: cs =>
    if isBreak c then ([], c :: cs)
    else
      let (pieces, rest) :=
        if c = '\'' then
          ([Piece.text (cs.takeWhile (· ≠ '\'')) true], (cs.dropWhile (· ≠ '\'')).drop 1)
        else if c = '"' then
          let (pieces, rest) := doubleQuoted (cs.length + 1) cs
          (Piece.text [] true :: pieces, rest)
        else if c = '$' then
          let (piece, rest) := parameter false cs
          ([piece], rest)
        else
          match c, cs with
          | '\\', d :: more => ([Piece.text (if d = '\n' then [] else [d]) true], more)
          | _, _ => ([Piece.text [c] false], cs)
      let (more, rest) := takeWord fuel rest
      (pieces ++ more, rest)

/-- An operator, if one starts here. -/
def operator? : List Char → Option (Token × List Char)
  | '\n' :: cs => some (.stop true, cs)
  | ';' :: cs => some (.stop false, cs)
  | '&' :: '&' :: cs => some (.andThen, cs)
  | '|' :: '|' :: cs => some (.orElse, cs)
  | '2' :: '>' :: '&' :: '1' :: cs => some (.toOther 2 1, cs)
  | '2' :: '>' :: '>' :: cs => some (.toFile 2 true, cs)
  | '2' :: '>' :: cs => some (.toFile 2 false, cs)
  | '1' :: '>' :: '&' :: '2' :: cs => some (.toOther 1 2, cs)
  | '>' :: '&' :: '2' :: cs => some (.toOther 1 2, cs)
  | '>' :: '&' :: '1' :: cs => some (.toOther 1 1, cs)
  | '>' :: '>' :: cs => some (.toFile 1 true, cs)
  | '>' :: cs => some (.toFile 1 false, cs)
  | _ => none

def tokens : Nat → List Char → List Token
  | 0, _ => []
  | _, [] => []
  | fuel + 1, c :: cs =>
    if c = ' ' ∨ c = '\t' then tokens fuel cs
    else if c = '#' then tokens fuel (cs.dropWhile (· ≠ '\n'))
    else
      match operator? (c :: cs) with
      | some (token, rest) => token :: tokens fuel rest
      | none =>
        if isBreak c then tokens fuel cs
        else
          let (word, rest) := takeWord (cs.length + 2) (c :: cs)
          .word word :: tokens fuel rest

end LiveRules.Shell
