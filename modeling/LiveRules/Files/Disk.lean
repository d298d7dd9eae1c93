import LiveRules.Files.Path
import LiveRules.Text.Utf8

/-!
A file system as a value. A `Disk` maps places, which are lists of names from the root down, to
files and folders. Reading is a function of the disk; an operation that changes it gives a result
and the disk after it.

Any single operation may fail: `troubles` says which do, by how many changes have been tried
before, the kind of the operation and its place. A failing write may leave the first bytes of what
was to be written. The disk that never fails is the one with no troubles.
-/

namespace LiveRules

open Text (Bytes)

/-- Why an operation on files fails. -/
inductive OsError where
  | notFound
  | inputOutput
  | noExec
  | accessDenied
  | exists
  | notFolder
  | isFolder
  | nameTooLong
  | notEmpty
  | nulInName
  | wholeTree
  | notText
  deriving DecidableEq, Inhabited

def OsError.message : OsError → String
  | .notFound => "No such file or directory (os error 2)"
  | .inputOutput => "Input/output error (os error 5)"
  | .noExec => "Exec format error (os error 8)"
  | .accessDenied => "Permission denied (os error 13)"
  | .exists => "File exists (os error 17)"
  | .notFolder => "Not a directory (os error 20)"
  | .isFolder => "Is a directory (os error 21)"
  | .nameTooLong => "File name too long (os error 36)"
  | .notEmpty => "Directory not empty (os error 39)"
  | .nulInName => "file name contained an unexpected NUL byte"
  | .wholeTree => "failed to create whole tree"
  | .notText => "stream did not contain valid UTF-8"

instance : DecidableEq Bytes := fun a b =>
  decidable_of_iff (a.data = b.data) ByteArray.ext_iff.symm

inductive Entry where
  | file (content : Bytes) (executable : Bool)
  | folder
  deriving DecidableEq, Inhabited

abbrev Place := List String

inductive FileOp where
  | look
  | read
  | list
  | write
  | makeFolder
  | removeFile
  | move
  deriving DecidableEq

/-- What goes wrong with one operation, and how many bytes a failing write leaves behind. -/
structure Trouble where
  error : OsError
  torn : Option Nat := none

structure Disk where
  /-- The root is always there and has no entry. -/
  entries : List (Place × Entry)
  /-- Where relative paths start. -/
  current : Place := []
  changes : Nat := 0
  troubles : Nat → FileOp → Place → Option Trouble := fun _ _ _ => none
  deriving Inhabited

namespace Disk

def lookup (place : Place) : List (Place × Entry) → Option Entry
  | [] => none
  | (p, e) :: rest => if p = place then some e else lookup place rest

def entry? (d : Disk) (place : Place) : Option Entry :=
  if place = [] then some .folder else lookup place d.entries

def put (place : Place) (e : Entry) : List (Place × Entry) → List (Place × Entry)
  | [] => [(place, e)]
  | (p, old) :: rest => if p = place then (p, e) :: rest else (p, old) :: put place e rest

def drop (place : Place) (entries : List (Place × Entry)) : List (Place × Entry) :=
  entries.filter fun x => x.1 ≠ place

def trouble? (d : Disk) (op : FileOp) (place : Place) : Option Trouble :=
  d.troubles d.changes op place

def ticked (d : Disk) : Disk := { d with changes := d.changes + 1 }

/-- A disk on which no operation fails of itself. -/
def Sound (d : Disk) : Prop := ∀ n op place, d.troubles n op place = none

/-- Longest name and longest path, in bytes. -/
def nameLimit : Nat := 255
def pathLimit : Nat := 4095

/-- Follows the pieces of a path from a place; every place that is passed must be a folder. -/
def walk (d : Disk) (place : Place) : List (List Char) → Except OsError Place
  | [] => .ok place
  | piece :: rest =>
    match d.entry? place with
    | none => .error .notFound
    | some (.file ..) => .error .notFolder
    | some .folder =>
      if Path.isIdle piece then walk d place rest
      else if piece = ['.', '.'] then walk d place.dropLast rest
      else
        let name := String.ofList piece
        if nameLimit < name.utf8ByteSize then .error .nameTooLong
        else walk d (place ++ [name]) rest

/-- The place that a path names; it need not exist, but what lies above it must. -/
def place? (d : Disk) (p : Path) : Except OsError Place :=
  if p.text.toList.contains '\x00' then .error .nulInName
  else if p.isEmpty then .error .notFound
  else if pathLimit < p.text.utf8ByteSize then .error .nameTooLong
  else if p.isAbsolute then d.walk [] (p.pieces.drop 1)
  else d.walk d.current p.pieces

/-- What a path leads to. -/
def look (d : Disk) (p : Path) : Except OsError Entry := do
  let place ← d.place? p
  match d.trouble? .look place with
  | some t => .error t.error
  | none =>
    match d.entry? place with
    | some e => .ok e
    | none => .error .notFound

def isFile (d : Disk) (p : Path) : Bool :=
  match d.look p with
  | .ok (.file ..) => true
  | _ => false

def isFolder (d : Disk) (p : Path) : Bool :=
  match d.look p with
  | .ok .folder => true
  | _ => false

def isThere (d : Disk) (p : Path) : Bool :=
  match d.look p with
  | .ok _ => true
  | .error _ => false

def read (d : Disk) (p : Path) : Except OsError Bytes := do
  let place ← d.place? p
  match d.trouble? .read place with
  | some t => .error t.error
  | none =>
    match d.entry? place with
    | some (.file content _) => .ok content
    | some .folder => .error .isFolder
    | none => .error .notFound

def readText (d : Disk) (p : Path) : Except OsError String := do
  match Text.decode? (← d.read p) with
  | some s => .ok s
  | none => .error .notText

/-- The name under which an entry lies directly in a folder. -/
def childName? (folder place : Place) : Option String :=
  match place.getLast? with
  | some name => if place = folder ++ [name] then some name else none
  | none => none

def children (d : Disk) (folder : Place) : List (String × Entry) :=
  d.entries.filterMap fun (place, e) => (childName? folder place).map fun name => (name, e)

/-- The names in a folder with what they lead to. -/
def list (d : Disk) (p : Path) : Except OsError (List (String × Entry)) := do
  let place ← d.place? p
  match d.trouble? .list place with
  | some t => .error t.error
  | none =>
    match d.entry? place with
    | some .folder => .ok (d.children place)
    | some (.file ..) => .error .notFolder
    | none => .error .notFound

/-- Runs a change: a trouble stops it, and it counts as a change either way. -/
def change (d : Disk) (op : FileOp) (place : Place)
    (act : Except OsError (List (Place × Entry))) : Except OsError Unit × Disk :=
  match d.trouble? op place with
  | some t => (.error t.error, d.ticked)
  | none =>
    match act with
    | .ok entries => (.ok (), { d.ticked with entries })
    | .error e => (.error e, d.ticked)

def writeEntries (d : Disk) (place : Place) (content : Bytes) :
    Except OsError (List (Place × Entry)) :=
  match d.entry? place with
  | some .folder => .error .isFolder
  | some (.file _ executable) => .ok (put place (.file content executable) d.entries)
  | none => .ok (put place (.file content false) d.entries)

/-- Replaces the content of a file, or makes it. -/
def write (d : Disk) (p : Path) (content : Bytes) : Except OsError Unit × Disk :=
  match d.place? p with
  | .error e => (.error e, d.ticked)
  | .ok place =>
    match d.trouble? .write place with
    | none => d.change .write place (d.writeEntries place content)
    | some t =>
      match t.torn, d.writeEntries place (content.extract 0 (t.torn.getD 0)) with
      | some _, .ok entries => (.error t.error, { d.ticked with entries })
      | _, _ => (.error t.error, d.ticked)

def makeFolder (d : Disk) (p : Path) : Except OsError Unit × Disk :=
  match d.place? p with
  | .error e => (.error e, d.ticked)
  | .ok place =>
    d.change .makeFolder place <|
      match d.entry? place with
      | some _ => .error .exists
      | none => .ok (put place .folder d.entries)

/-- Makes the first of some paths a folder, each being made below the next one. -/
def makeChain (d : Disk) : List Path → Except OsError Unit × Disk
  | [] => (.error .wholeTree, d)
  | p :: above =>
    if p.isEmpty then (.ok (), d)
    else
      match d.makeFolder p with
      | (.ok _, d) => (.ok (), d)
      | (.error .notFound, d) =>
        match makeChain d above with
        | (.error e, d) => (.error e, d)
        | (.ok _, d) =>
          match d.makeFolder p with
          | (.ok _, d) => (.ok (), d)
          | (.error e, d) => (if d.isFolder p then .ok () else .error e, d)
      | (.error e, d) => (if d.isFolder p then .ok () else .error e, d)

/-- Makes a folder and all that is missing above it. -/
def makeFolders (d : Disk) (p : Path) : Except OsError Unit × Disk := d.makeChain p.ancestors

def removeFile (d : Disk) (p : Path) : Except OsError Unit × Disk :=
  match d.place? p with
  | .error e => (.error e, d.ticked)
  | .ok place =>
    d.change .removeFile place <|
      match d.entry? place with
      | some (.file ..) => .ok (drop place d.entries)
      | some .folder => .error .isFolder
      | none => .error .notFound

/-- Moves a file onto a place that is free or holds a file. -/
def move (d : Disk) (source target : Path) : Except OsError Unit × Disk :=
  match d.place? source, d.place? target with
  | .error e, _ => (.error e, d.ticked)
  | _, .error e => (.error e, d.ticked)
  | .ok s, .ok t =>
    d.change .move t <|
      match d.entry? s, d.entry? t with
      | none, _ => .error .notFound
      | some .folder, _ => .error .isFolder
      | some (.file ..), some .folder => .error .isFolder
      | some (.file content executable), _ =>
        if s = t then .ok d.entries
        else .ok (put t (.file content executable) (drop s d.entries))

/-- Everything at or below a place. -/
def isBelow (top place : Place) : Bool := top.isPrefixOf place

/-- Removes whatever is at a place, with all that is below. -/
def removeTree (d : Disk) (p : Path) : Bool × Disk :=
  match d.place? p with
  | .error _ => (false, d)
  | .ok place =>
    if (d.entry? place).isNone then (false, d)
    else (true, { d.ticked with entries := d.entries.filter fun x => !isBelow place x.1 })

end Disk

end LiveRules
