import LiveRules.Toml.Number
import LiveRules.Toml.Quoted
import LiveRules.Toml.Tables

/-!
Reading documents. `document` gives the entries of a text, or the line at which it stops being a
document.
-/

namespace LiveRules.Toml

/-- How many parts a dotted key may not reach, and how deep arrays and tables may not lie. -/
def limit : Nat := 80

def isBare (c : Char) : Bool :=
  Decimal.isDigit c || ('a' ≤ c && c ≤ 'z') || ('A' ≤ c && c ≤ 'Z') || c == '-' || c == '_'

/-- Whether a key can start with the next character. -/
def startsKey : List Char → Bool
  | [] => false
  | c :: _ => c == '"' || c == '\'' || isBare c

/-- One part of a key; three quotes have no meaning here. -/
def keyPart (cs : List Char) : Reading (List Char) :=
  match cs with
  | '"' :: cs => basic .plain cs
  | '\'' :: cs => literal cs
  | cs =>
    let name := cs.takeWhile isBare
    if name.isEmpty then .error cs else .ok (name, cs.dropWhile isBare)

/-- A dotted key with the blanks around its parts. -/
def keyPath : Nat → List Char → Reading (List Key)
  | 0, cs => .error cs
  | fuel + 1, cs =>
    let start := skipSpace cs
    match keyPart start with
    | .error rest => .error rest
    | .ok (name, rest) =>
      let key : Key := ⟨.ofList name, start.length⟩
      match skipSpace rest with
      | '.' :: rest =>
        match keyPath fuel rest with
        | .ok (path, rest) => .ok (key :: path, rest)
        | .error rest => .error rest
      | rest => .ok ([key], rest)

def key (cs : List Char) : Reading (List Key) :=
  match keyPath (cs.length + 1) cs with
  | .ok (path, rest) => if path.length < limit then .ok (path, rest) else .error cs
  | .error rest => .error rest

def word? : List Char → List Char → Option (List Char)
  | [], cs => some cs
  | _, [] => none
  | w :: ws, c :: cs => if w = c then word? ws cs else none

def wordOr (word : String) (node : Node) (cs : List Char) : Reading Node :=
  match word? word.toList cs with
  | some rest => .ok (node, rest)
  | none => .error cs

/-- A number, a date or a word. -/
def scalar (cs : List Char) : Reading Node :=
  let mark := cs.length
  match cs with
  | [] => .error []
  | c :: _ =>
    if c = 't' then wordOr "true" (.boolean mark true) cs
    else if c = 'f' then wordOr "false" (.boolean mark false) cs
    else if c = 'i' ∨ c = 'n' ∨ c = '+' ∨ c = '-' ∨ Decimal.isDigit c then
      if startsDate cs then
        match date? cs with
        | some rest => .ok (.date mark, rest)
        | none => .error cs
      else
        match float? cs, integer? cs with
        | some (x, rest), _ => .ok (.float mark x, rest)
        | none, some (n, rest) => .ok (.integer mark n, rest)
        | none, none => .error cs
    else .error cs

mutual

/-- A value inside `depth` arrays and tables. -/
def value : Nat → Nat → List Char → Reading Node
  | 0, _, cs => .error cs
  | fuel + 1, depth, cs =>
    match quoted? cs with
    | some (.ok (s, rest)) => .ok (.string cs.length (.ofList s), rest)
    | some (.error rest) => .error rest
    | none =>
      match cs with
      | '[' :: rest =>
        if limit ≤ depth + 1 then .error cs
        else
          match items fuel (depth + 1) rest with
          | .ok (nodes, rest) => .ok (.array cs.length nodes, rest)
          | .error rest => .error rest
      | '\x7b' :: rest =>
        if limit ≤ depth + 1 then .error cs
        else
          match pairs fuel (depth + 1) rest with
          | .error rest => .error rest
          | .ok (found, after) =>
            match inlineEntries found, after with
            | none, _ => .error rest
            | some entries, '\x7d' :: after => .ok (.table .inline (some cs.length) entries, after)
            | some _, after => .error after
      | cs => scalar cs

/-- The items of an array and the closing bracket. -/
def items : Nat → Nat → List Char → Reading (List Node)
  | 0, _, cs => .error cs
  | fuel + 1, depth, cs =>
    match betweenItems cs with
    | .error rest => .error rest
    | .ok (']' :: rest) => .ok ([], rest)
    | .ok cs =>
      match value fuel depth cs with
      | .error rest => .error rest
      | .ok (node, after) =>
        match betweenItems after with
        | .error _ => .error cs
        | .ok (',' :: rest) =>
          match items fuel depth rest with
          | .ok (nodes, rest) => .ok (node :: nodes, rest)
          | .error rest => .error rest
        | .ok (']' :: rest) => .ok ([node], rest)
        | .ok rest => .error rest

/-- The pairs of a table between braces, without the closing brace. -/
def pairs : Nat → Nat → List Char → Reading (List (List Key × Node))
  | 0, _, cs => .error cs
  | fuel + 1, depth, cs =>
    if startsKey (skipSpace cs) then
      match key cs with
      | .error rest => .error rest
      | .ok (path, '=' :: rest) =>
        match value fuel depth (skipSpace rest) with
        | .error rest => .error rest
        | .ok (node, rest) =>
          match skipSpace rest with
          | ',' :: more =>
            if startsKey (skipSpace more) then
              match pairs fuel depth more with
              | .ok (found, rest) => .ok ((path, node) :: found, rest)
              | .error rest => .error rest
            else .ok ([(path, node)], ',' :: more)
          | rest => .ok ([(path, node)], rest)
      | .ok (_, rest) => .error rest
    else .ok ([], skipSpace cs)

end

def closing (brackets : List Char) (cs : List Char) : Except (List Char) (List Char) :=
  match word? brackets cs with
  | some rest => lineEnd rest
  | none => .error cs

/-- A header, from its first bracket on. -/
def header (cs : List Char) : Reading Statement :=
  match cs with
  | '[' :: '[' :: rest =>
    match key rest with
    | .error rest => .error rest
    | .ok (path, rest) => (closing [']', ']'] rest).map (.repeated cs.length path, ·)
  | '[' :: rest =>
    match key rest with
    | .error rest => .error rest
    | .ok (path, rest) => (closing [']'] rest).map (.header cs.length path, ·)
  | cs => .error cs

/-- A key, its value and the end of the line. -/
def pair (cs : List Char) : Reading Statement :=
  match key cs with
  | .error rest => .error rest
  | .ok (path, '=' :: rest) =>
    match value (2 * rest.length + 2) 0 (skipSpace rest) with
    | .error rest => .error rest
    | .ok (node, rest) => (lineEnd rest).map (.pair cs.length path node, ·)
  | .ok (_, rest) => .error rest

/-- The statements of a text up to its end, or up to the place where reading stops. -/
def statements : Nat → List Char → List Statement × Option (List Char)
  | 0, cs => ([], some cs)
  | fuel + 1, cs =>
    let cs := skipSpace cs
    let next (read : Reading Statement) :=
      match read with
      | .error rest => ([], some rest)
      | .ok (statement, rest) =>
        let (more, stop) := statements fuel rest
        (statement :: more, stop)
    match cs with
    | [] => ([], none)
    | '#' :: _ =>
      match lineEnd cs with
      | .ok rest => statements fuel rest
      | .error rest => ([], some rest)
    | '[' :: _ => next (header cs)
    | '\n' :: rest => statements fuel rest
    | '\r' :: rest =>
      match rest with
      | '\n' :: rest => statements fuel rest
      | _ => ([], some cs)
    | cs => next (pair cs)

def skipByteOrderMark : List Char → List Char
  | [] => []
  | c :: cs => if c = '\uFEFF' then cs else c :: cs

/-- The entries of a document, or the line where it is not one. -/
def document (text : List Char) : Except Nat Entries :=
  let (found, stop) := statements (text.length + 1) (skipByteOrderMark text)
  match ({} : Draft).addAll found, stop with
  | .error mark, _ => .error (lineAt text mark)
  | .ok _, some rest => .error (lineAt text rest.length)
  | .ok draft, none => .ok draft.entries

end LiveRules.Toml
