import LiveRules.Toml.Basic

/-!
Building tables from keys and headers.

A table has one definition. A header may define a table that other headers only named on their way;
a dotted key may add to tables that dotted keys made; nothing adds to a table between braces or to
a table under a header from elsewhere.
-/

namespace LiveRules.Toml

/-- Changes the last item of a list. -/
def changeLast {α : Type} (f : α → Option α) : List α → Option (List α)
  | [] => none
  | [x] => (f x).map fun y => [y]
  | x :: rest => (changeLast f rest).map (x :: ·)

/-- A dotted key may only pass tables that are named on the way. -/
def passes (form own : Form) : Bool := own != .inline && !(form == .dotted && own == .header)

/-- Changes the table at the end of a path; missing tables on the way are made in the form of the
path. Under repeated headers the path goes through the last table. -/
def alter (form : Form) (change : Form → Entries → Option Entries) :
    List Key → Form → Entries → Option Entries
  | [], own, entries => change own entries
  | key :: path, _, entries =>
    match get? key.name entries with
    | none => (alter form change path form []).map fun inner =>
        entries ++ [(key, .table form none inner)]
    | some (.table own mark inner) =>
      if passes form own then
        (alter form change path own inner).map fun inner =>
          replace key.name (.table own mark inner) entries
      else none
    | some (.tables mark items) =>
      (changeLast (fun
        | .table own mark inner => (alter form change path own inner).map (.table own mark)
        | _ => none) items).map fun items => replace key.name (.tables mark items) entries
    | some _ => none

/-- Adds a new key. Dotted keys end only in tables that dotted keys made, and others never. -/
def define (isDotted : Bool) (key : Key) (node : Node) (own : Form) (entries : Entries) :
    Option Entries :=
  if isDotted ≠ (own == .dotted) then none
  else if (get? key.name entries).isSome then none
  else some (entries ++ [(key, node)])

/-- Adds a value under a dotted key, which is not empty. -/
def assign (path : List Key) (node : Node) (own : Form) (entries : Entries) : Option Entries :=
  match path.getLast? with
  | none => none
  | some key =>
    let above := path.dropLast
    alter .dotted (define (!above.isEmpty) key node) above own entries

/-- The table between braces that holds some pairs. -/
def inlineEntries (pairs : List (List Key × Node)) : Option Entries :=
  pairs.foldlM (fun entries pair => assign pair.1 pair.2 .inline entries) []

/-- Starts the table under a header. A table that was only named so far moves to the end. -/
def openTable (mark : Mark) (key : Key) (_ : Form) (entries : Entries) : Option Entries :=
  match get? key.name entries with
  | none => some (entries ++ [(key, .table .header (some mark) [])])
  | some (.table .implied _ inner) =>
    some (erase key.name entries ++ [(key, .table .header (some mark) inner)])
  | some _ => none

/-- Starts one more table under a repeated header. -/
def openNext (mark : Mark) (key : Key) (_ : Form) (entries : Entries) : Option Entries :=
  let next := Node.table .header (some mark) []
  match get? key.name entries with
  | none => some (entries ++ [(key, .tables mark [next])])
  | some (.tables first items) =>
    some (replace key.name (.tables first (items ++ [next])) entries)
  | some _ => none

inductive Statement where
  | header (mark : Mark) (path : List Key)
  | repeated (mark : Mark) (path : List Key)
  | pair (mark : Mark) (path : List Key) (node : Node)

def Statement.mark : Statement → Mark
  | .header mark _ | .repeated mark _ | .pair mark _ _ => mark

/-- The document as far as it is read, and the header that pairs belong to. -/
structure Draft where
  entries : Entries := []
  current : List Key := []

def underHeader (start : Mark → Key → Form → Entries → Option Entries) (mark : Mark)
    (path : List Key) (draft : Draft) : Option Draft :=
  match path.getLast? with
  | none => none
  | some key =>
    (alter .implied (start mark key) path.dropLast .header draft.entries).map fun entries =>
      ⟨entries, path⟩

def Draft.add (draft : Draft) : Statement → Option Draft
  | .header mark path => underHeader openTable mark path draft
  | .repeated mark path => underHeader openNext mark path draft
  | .pair _ path node =>
    (alter .implied (assign path node) draft.current .header draft.entries).map fun entries =>
      { draft with entries }

/-- Adds statements in turn; what cannot be added is named by its place. -/
def Draft.addAll (draft : Draft) : List Statement → Except Mark Draft
  | [] => .ok draft
  | statement :: rest =>
    match draft.add statement with
    | some draft => draft.addAll rest
    | none => .error statement.mark

end LiveRules.Toml
