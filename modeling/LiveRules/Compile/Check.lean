import LiveRules.Compile.Outcome
import LiveRules.Source

/-!
Checking one source by itself: its name, its package and its rules.
-/

namespace LiveRules

/-- A source that passed its own checks; references to other units are still open. -/
structure CheckedUnit where
  path : Path
  unit : Artifact
  baseLine : Nat
  /-- Where each rule names its item, in the order of the methods. -/
  itemLines : List Nat
  deriving DecidableEq

namespace Check

open Toml (Marked)

/-- A complaint about a line. -/
abbrev Complaint := Nat × String

def nameComplaints (line : Marked → Nat) (stem : String) (x : Declaration) : List Complaint :=
  match x.name? with
  | some name =>
    if name.text = stem then []
    else [(line name, "unit name `" ++ name.text ++ "` does not match file name `" ++ stem ++ "`")]
  | none => []

def packageComplaints (line : Marked → Nat) (x : Declaration) : List Complaint :=
  match x.package? with
  | none => [(1, "missing `package` declaration")]
  | some package =>
    if Naming.isNamespace package.text then []
    else [(line package, "invalid package `" ++ package.text ++ "`")]

def kindComplaints (x : Declaration) : List Complaint :=
  if x.kind = .item ∧ x.item.isNone then [(1, "item unit without an `[item]` table")] else []

/-- Complaints about a rule whose trigger is known. -/
def qualifierComplaints (line : Marked → Nat) (trigger : Trigger) (r : RuleDeclaration) :
    List Complaint :=
  (if trigger ≠ .changed ∧ (r.fromState.isSome ∨ r.toState.isSome) then
    [(line r.trigger, "`from`/`to` only apply to `changed` triggers, not `" ++ trigger.word ++ "`")]
  else []) ++
  (if r.bounds.lt.isSome ∧ r.bounds.lte.isSome then
    [(line r.name, "`lt` and `lte` are mutually exclusive")] else []) ++
  (if r.bounds.gt.isSome ∧ r.bounds.gte.isSome then
    [(line r.name, "`gt` and `gte` are mutually exclusive")] else [])

/-- Complaints about a rule, given the names of the rules before it. -/
def ruleComplaints (line : Marked → Nat) (seen : List String) (r : RuleDeclaration) :
    List Complaint :=
  (if seen.contains r.name.text then [(line r.name, "duplicate rule `" ++ r.name.text ++ "`")]
  else []) ++
  match Trigger.read? r.trigger.text with
  | none => [(line r.trigger, Trigger.unknown r.trigger.text)]
  | some trigger => qualifierComplaints line trigger r

def rulesComplaints (line : Marked → Nat) : List String → List RuleDeclaration → List Complaint
  | _, [] => []
  | seen, r :: rest =>
    ruleComplaints line seen r ++ rulesComplaints line (r.name.text :: seen) rest

def complaints (line : Marked → Nat) (stem : String) (x : Declaration) : List Complaint :=
  nameComplaints line stem x ++ packageComplaints line x ++ kindComplaints x ++
    rulesComplaints line [] x.rules

/-- Empty texts say nothing. -/
def meaningful (s : Option String) : Option String := s.filter fun t => !t.isEmpty

def method? (r : RuleDeclaration) : Option Method :=
  (Trigger.read? r.trigger.text).map fun trigger =>
    { name := r.name.text
      item := r.item.text
      trigger
      fromState := meaningful r.fromState
      toState := meaningful r.toState
      update := meaningful r.update
      bounds := r.bounds
      takesEvent := r.takesEvent
      actions := r.actions }

def unitOf (text stem : String) (x : Declaration) : Artifact :=
  { identifier := (x.package?.elim "" Marked.text) ++ "." ++ stem
    kind := x.kind
    isAbstract := x.isAbstract
    constructible := x.constructible
    extends? := x.base?.map Marked.text
    methods := x.rules.filterMap method?
    item := x.item
    sourceHash := (ContentHash.ofText text).hex }

/-- Checks the text of a source. -/
def ofText (path : Path) (text : String) : Except (List Diagnostic) CheckedUnit :=
  match Declaration.ofText text.toList with
  | .error e => .error [⟨path, e.line, e.message⟩]
  | .ok x =>
    let line (m : Marked) := Toml.lineAt text.toList m.mark
    match complaints line path.stem x with
    | [] => .ok {
        path
        unit := unitOf text path.stem x
        baseLine := x.base?.elim 0 line
        itemLines := x.rules.map fun r => line r.item }
    | found => .error (found.map fun c => ⟨path, c.1, c.2⟩)

/-- Checks the source at a path. -/
def ofPath (d : Disk) (path : Path) : Except (List Diagnostic) CheckedUnit :=
  match d.readText path with
  | .error e => .error [⟨path, 0, "cannot read source: " ++ e.message⟩]
  | .ok text => ofText path text

end Check

end LiveRules
