import LiveRules.Shell.Word

/-!
Scripts: commands one after the other, some of them run only when the one before succeeded or
failed.
-/

namespace LiveRules.Shell

inductive Redirect where
  | toFile (fd : Nat) (appends : Bool) (target : Word)
  | toOther (fd other : Nat)
  deriving Inhabited

/-- When a command is run, given how the one before ended. -/
inductive Link where
  | always
  | ifSucceeded
  | ifFailed
  deriving DecidableEq, Inhabited

inductive Command where
  | simple (line : Nat) (words : List Word) (redirects : List Redirect)
  /-- The body for each of some words. -/
  | each (name : String) (words : List Word) (body : List (Link × Command))
  | branch (test yes no : List (Link × Command))
  deriving Inhabited

abbrev Script := List (Link × Command)

/-- The text of a word without quotes and parameters. -/
def plain? : Word → Option (List Char)
  | [] => some []
  | .text chars false :: rest => (plain? rest).map (chars ++ ·)
  | _ => none

def isKeyword (name : String) : Token → Bool
  | .word w => plain? w == some name.toList
  | _ => false

/-- The words and redirections up to the end of a simple command. -/
def takeSimple : List Token → List Word × List Redirect × List Token
  | .word w :: rest =>
    let (words, redirects, rest) := takeSimple rest
    (w :: words, redirects, rest)
  | .toFile fd appends :: .word w :: rest =>
    let (words, redirects, rest) := takeSimple rest
    (words, .toFile fd appends w :: redirects, rest)
  | .toOther fd other :: rest =>
    let (words, redirects, rest) := takeSimple rest
    (words, .toOther fd other :: redirects, rest)
  | rest => ([], [], rest)

def countLines (ts : List Token) : Nat := (ts.filter fun t => t == .stop true).length

/-- The words of a list that a line end or a semicolon closes. -/
def takeWords : List Token → List Word × List Token
  | .word w :: rest =>
    let (words, rest) := takeWords rest
    (w :: words, rest)
  | .stop _ :: rest => ([], rest)
  | rest => ([], rest)

def closesBlock (t : Token) : Bool :=
  isKeyword "then" t || isKeyword "else" t || isKeyword "fi" t || isKeyword "do" t ||
    isKeyword "done" t

/-- The commands up to the end or to a word that closes a block. `total` is the number of lines. -/
def takeScript (total : Nat) : Nat → Link → List Token → Script × List Token
  | 0, _, ts => ([], ts)
  | _, _, [] => ([], [])
  | fuel + 1, link, t :: ts =>
    let proceed (command : Command) (rest : List Token) :=
      let (more, rest) := takeScript total fuel .always rest
      ((link, command) :: more, rest)
    match t with
    | .stop _ => takeScript total fuel link ts
    | .andThen => takeScript total fuel .ifSucceeded ts
    | .orElse => takeScript total fuel .ifFailed ts
    | t =>
      if closesBlock t then ([], t :: ts)
      else if isKeyword "if" t then
        let (test, rest) := takeScript total fuel .always ts
        let (yes, rest) := takeScript total fuel .always (rest.drop 1)
        match rest with
        | next :: more =>
          if isKeyword "else" next then
            let (no, rest) := takeScript total fuel .always more
            proceed (.branch test yes no) (rest.drop 1)
          else proceed (.branch test yes []) more
        | [] => proceed (.branch test yes []) []
      else if isKeyword "for" t then
        match ts with
        | .word name :: keyword :: rest =>
          let (words, rest) := if isKeyword "in" keyword then takeWords rest else ([], rest)
          let (body, rest) := takeScript total fuel .always (rest.drop 1)
          proceed (.each (.ofList ((plain? name).getD [])) words body) (rest.drop 1)
        | _ => ([], [])
      else
        let (words, redirects, rest) := takeSimple (t :: ts)
        if words.isEmpty && redirects.isEmpty then takeScript total fuel link ts
        else proceed (.simple (total - countLines (t :: ts) + 1) words redirects) rest

/-- The script that a text is. -/
def scriptOf (text : List Char) : Script :=
  let ts := tokens (text.length + 1) text
  (takeScript (countLines ts) (2 * ts.length + 2) .always ts).1

end LiveRules.Shell
