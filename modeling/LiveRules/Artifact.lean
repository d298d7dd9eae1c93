import LiveRules.Text.Blank

/-!
Compiled units: what a source declares once it is checked and linked. A unit holds rule methods,
each bound to a trigger on an item, and may extend another unit; an item unit declares the item
itself.
-/

namespace LiveRules

inductive UnitKind where
  | rule
  | item
  deriving DecidableEq, Inhabited

def UnitKind.word : UnitKind → String
  | .rule => "rule"
  | .item => "item"

def UnitKind.ofWord? (s : String) : Option UnitKind :=
  if s = "rule" then some .rule else if s = "item" then some .item else none

inductive Trigger where
  | changed
  | receivedUpdate
  | receivedCommand
  deriving DecidableEq, Inhabited

def Trigger.word : Trigger → String
  | .changed => "changed"
  | .receivedUpdate => "received update"
  | .receivedCommand => "received command"

def Trigger.ofWord? (s : String) : Option Trigger :=
  if s = "changed" then some .changed
  else if s = "received update" then some .receivedUpdate
  else if s = "received command" then some .receivedCommand
  else none

/-- Reads a trigger as sources spell it, blanks around it left out. -/
def Trigger.read? (s : String) : Option Trigger :=
  let s := Text.trim s
  if s = "updated" ∨ s = "update" then some .receivedUpdate
  else if s = "command" then some .receivedCommand
  else ofWord? s

def Trigger.unknown (s : String) : String :=
  "unknown trigger `" ++ Text.trim s ++
    "` (expected `changed`, `received update` or `received command`)"

/-- What a rule does when it fires; the texts are templates. -/
inductive Action where
  | command (item value : String)
  | update (item value : String)
  | log (text : String)
  deriving DecidableEq, Inhabited

/-- The first of the three shapes whose texts are all there; what else is there does not matter. -/
def Action.ofTexts? (text? : String → Option String) : Option Action :=
  match text? "item", text? "command", text? "update", text? "log" with
  | some item, some value, _, _ => some (.command item value)
  | some item, none, some value, _ => some (.update item value)
  | _, _, _, some text => some (.log text)
  | _, _, _, none => none

/-- An item as its unit declares it. -/
structure Item where
  name : String
  type : String
  label : Option String := none
  deriving DecidableEq, Inhabited

/-- Numeric thresholds on a state. -/
structure Bounds where
  lt : Option Float := none
  lte : Option Float := none
  gt : Option Float := none
  gte : Option Float := none
  deriving DecidableEq, Inhabited

def Bounds.isSet (b : Bounds) : Bool :=
  b.lt.isSome || b.lte.isSome || b.gt.isSome || b.gte.isSome

/-- A rule method and its trigger. -/
structure Method where
  name : String
  item : String
  /-- The unit that declares the item, once linked. -/
  itemClass : Option String := none
  trigger : Trigger
  fromState : Option String := none
  toState : Option String := none
  update : Option String := none
  bounds : Bounds := {}
  takesEvent : Bool := false
  actions : List Action := []
  deriving DecidableEq, Inhabited

structure Artifact where
  identifier : String
  kind : UnitKind
  isAbstract : Bool := false
  constructible : Bool
  extends? : Option String := none
  methods : List Method := []
  item : Option Item := none
  sourceHash : String := ""
  deriving DecidableEq, Inhabited

end LiveRules
