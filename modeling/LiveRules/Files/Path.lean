import LiveRules.Text.Cut

/-!
Paths. A path keeps its text, which messages show; two paths name the same place when their
components agree, and paths are ordered by their components.

`/` separates. Empty pieces and `.` are left out of the components, except a `.` at the very start
of a relative path.
-/

namespace LiveRules

structure Path where
  text : String
  deriving DecidableEq, Inhabited

namespace Path

inductive Component where
  | root
  | here
  | up
  | name (s : String)
  deriving DecidableEq

open Text in
def pieces (p : Path) : List (List Char) := split '/' p.text.toList

def isAbsolute (p : Path) : Bool := p.text.toList.head? == some '/'

def isEmpty (p : Path) : Bool := p.text.isEmpty

/-- Whether a piece after the first one says nothing. -/
def isIdle (piece : List Char) : Bool := piece.isEmpty || piece == ['.']

def component (piece : List Char) : Component :=
  if piece = ['.', '.'] then .up else .name (.ofList piece)

def components (p : Path) : List Component :=
  match p.pieces with
  | [] => []
  | first :: rest =>
    let tail := (rest.filter fun piece => !isIdle piece).map component
    if p.isAbsolute then .root :: tail
    else if first.isEmpty then tail
    else if first = ['.'] then .here :: tail
    else component first :: tail

/-- Whether two paths are the same component by component. -/
def same (p q : Path) : Bool := p.components == q.components

def Component.rank : Component → Nat
  | .root => 0
  | .here => 1
  | .up => 2
  | .name _ => 3

def Component.le (a b : Component) : Bool :=
  match a, b with
  | .name s, .name t => s ≤ t
  | a, b => a.rank ≤ b.rank

/-- The order of lists of components, the first difference deciding. -/
def leComponents : List Component → List Component → Bool
  | [], _ => true
  | _ :: _, [] => false
  | a :: as, b :: bs => if a = b then leComponents as bs else a.le b

def le (p q : Path) : Bool := leComponents p.components q.components

def lt (p q : Path) : Bool := p.le q && !p.same q

/-- A path below this one. An absolute path stands for itself. -/
def join (p q : Path) : Path :=
  if q.isAbsolute then q
  else if p.isEmpty || p.text.toList.getLast? == some '/' then ⟨p.text ++ q.text⟩
  else ⟨p.text ++ "/" ++ q.text⟩

/-- Leaves out the pieces at the end that say nothing; the first piece stays. -/
def trimPieces : List (List Char) → List (List Char)
  | [] => []
  | first :: rest => first :: (rest.reverse.dropWhile isIdle).reverse

def ofPieces (absolute : Bool) (pieces : List (List Char)) : Path :=
  match pieces with
  | [first] => if absolute then ⟨"/"⟩ else ⟨.ofList first⟩
  | pieces => ⟨.ofList (Text.joined ['/'] pieces)⟩

/-- The path without its last component; the root and the empty path have no parent. -/
def parent? (p : Path) : Option Path :=
  let kept := trimPieces p.pieces
  match kept with
  | [] => none
  | [first] => if first.isEmpty then none else some ⟨""⟩
  | kept => some (ofPieces p.isAbsolute (trimPieces kept.dropLast))

/-- The last component, when it is a name. -/
def fileName? (p : Path) : Option String :=
  match p.components.getLast? with
  | some (.name s) => some s
  | _ => none

/-- A name cut at its last point. A point at the start does not count. -/
def cutName (name : String) : String × Option String :=
  match Text.splitLast? '.' name.toList with
  | some (before, after) =>
    if before.isEmpty then (name, none) else (.ofList before, some (.ofList after))
  | none => (name, none)

def stem? (p : Path) : Option String := p.fileName?.map fun name => (cutName name).1

def extension? (p : Path) : Option String := p.fileName?.bind fun name => (cutName name).2

/-- The stem, or nothing where there is none. -/
def stem (p : Path) : String := p.stem?.getD ""

def hasExtension (p : Path) (ext : String) : Bool := p.extension? == some ext

/-- The path with another extension; a path without a file name stays as it is. -/
def withExtension (p : Path) (ext : String) : Path :=
  match p.fileName? with
  | none => p
  | some name =>
    let kept := trimPieces p.pieces
    let last := ((cutName name).1 ++ "." ++ ext).toList
    ⟨.ofList (Text.joined ['/'] (kept.dropLast ++ [last]))⟩

/-- The path and the paths above it, the longest first. -/
def ancestorsFrom : Nat → Path → List Path
  | 0, p => [p]
  | n + 1, p =>
    match p.parent? with
    | none => [p]
    | some above => p :: ancestorsFrom n above

def ancestors (p : Path) : List Path := ancestorsFrom p.pieces.length p

/-- Puts a path in front of the first one that does not come before it. -/
def insertSorted (p : Path) : List Path → List Path
  | [] => [p]
  | q :: rest => if p.le q then p :: q :: rest else q :: insertSorted p rest

/-- Sorts paths by their components. -/
def sort (paths : List Path) : List Path := paths.foldr insertSorted []

/-- A home directory in place of a `~` that stands alone or in front of a `/`. -/
def expandHome (home : String) (p : Path) : Path :=
  match p.text.toList with
  | '~' :: rest =>
    match rest with
    | [] => ⟨home⟩
    | '/' :: _ => ⟨home ++ .ofList rest⟩
    | _ => p
  | _ => p

/-- A configured path seen from a base directory. -/
def resolve (home : String) (p base : Path) : Path :=
  let p := p.expandHome home
  if p.isAbsolute then p else base.join p

end Path

end LiveRules
