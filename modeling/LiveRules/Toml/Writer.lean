import LiveRules.Toml.Space

/-!
Writing texts into documents. A text is written between single double quotes when nothing in it
needs an escape; else in the first of these forms that needs none: between single quotes, between
three double quotes, between three single quotes. A text that needs escapes in any form goes
between double quotes, three of them when it has several lines.
-/

namespace LiveRules.Toml

/-- Control characters that cannot stand in a text of any form. -/
def needsCode (c : Char) : Bool := c ≠ '\t' && c ≠ '\n' && !isVisible c

/-- The longest run of a character; `run` of them stand right before the text. -/
def longestRun (q : Char) : Nat → List Char → Nat
  | run, [] => run
  | run, c :: cs => if c = q then longestRun q (run + 1) cs else max run (longestRun q 0 cs)

inductive Quoting where
  | basic
  | literal
  | basicLines
  | literalLines
  deriving DecidableEq

def Quoting.delimiter : Quoting → List Char
  | .basic => ['"']
  | .literal => ['\'']
  | .basicLines => ['"', '"', '"']
  | .literalLines => ['\'', '\'', '\'']

def Quoting.ofText (cs : List Char) : Quoting :=
  let codes := cs.any needsCode
  let escapes := cs.contains '\\'
  let double := longestRun '"' 0 cs
  let single := longestRun '\'' 0 cs
  let breaks := cs.contains '\n'
  if !codes && !escapes && double = 0 && !breaks then .basic
  else if !codes && single = 0 && !breaks then .literal
  else if !codes && !escapes && double ≤ 2 then .basicLines
  else if !codes && single ≤ 2 then .literalLines
  else if breaks then .basicLines
  else .basic

def upperHex (n : Nat) : Char := (Nat.digitChar n).toUpper

/-- A character between double quotes. Line feeds and quotes are dealt with before. -/
def escapedChar (c : Char) : List Char :=
  if c = '\x08' then ['\\', 'b']
  else if c = '\t' then ['\\', 't']
  else if c = '\n' then ['\\', 'n']
  else if c = '\x0c' then ['\\', 'f']
  else if c = '\r' then ['\\', 'r']
  else if c = '\\' then ['\\', '\\']
  else if isVisible c then [c]
  else ['\\', 'u', '0', '0', upperHex (c.toNat / 16), upperHex (c.toNat % 16)]

def escapedBasic : List Char → List Char
  | [] => []
  | c :: cs => (if c = '"' then ['\\', '"'] else escapedChar c) ++ escapedBasic cs

/-- Of three quotes in a row the last is escaped; `run` quotes stand right before the text. -/
def escapedLines : Nat → List Char → List Char
  | _, [] => []
  | run, c :: cs =>
    if c = '"' then
      if run = 2 then '\\' :: '"' :: escapedLines 0 cs else '"' :: escapedLines (run + 1) cs
    else if c = '\n' then '\n' :: escapedLines 0 cs
    else escapedChar c ++ escapedLines 0 cs

def Quoting.body (q : Quoting) (cs : List Char) : List Char :=
  match q with
  | .basic => escapedBasic cs
  | .literal => cs
  | .basicLines => (if cs.contains '\n' then ['\n'] else []) ++ escapedLines 0 cs
  | .literalLines => (if cs.contains '\n' then ['\n'] else []) ++ cs

def writeText (s : String) : String :=
  let q := Quoting.ofText s.toList
  .ofList (q.delimiter ++ q.body s.toList ++ q.delimiter)

end LiveRules.Toml
