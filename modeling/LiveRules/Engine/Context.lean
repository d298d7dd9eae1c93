import LiveRules.Decimal.Text
import LiveRules.Engine.Event
import LiveRules.Load.Instance
import LiveRules.Text.Cut

/-!
Execution contexts. A context is one method of an instance: it says which events it matches and
what it does for them. An event matches when its item and kind agree, the states that the context
names are those of the event, and the state, read as a number, keeps all thresholds.
-/

namespace LiveRules

inductive Effect where
  | command (item value : String)
  | update (item value : String)
  | log (text : String)
  deriving DecidableEq

def Effect.text : Effect → String
  | .command item value => "command " ++ value ++ " -> " ++ item
  | .update item value => "update " ++ value ++ " -> " ++ item
  | .log text => "log: " ++ text

structure Context where
  /-- The identifier of the instance. -/
  owner : String
  method : Method
  deriving DecidableEq, Inhabited

namespace Context

def ofInstance (i : Instance) : List Context :=
  i.methods.map fun m =>
    let meaningful (s : Option String) := s.filter fun t => !t.isEmpty
    { owner := i.unit.identifier
      method := { m with
        fromState := meaningful m.fromState
        toState := meaningful m.toState
        update := meaningful m.update } }

def rule (c : Context) : String := c.owner ++ "." ++ c.method.name

/-- The trigger with the states that it names. -/
def triggerText (c : Context) : String :=
  let word := c.method.trigger.word
  match c.method.fromState, c.method.toState, c.method.update with
  | some a, some b, _ => word ++ " from " ++ a ++ " to " ++ b
  | some a, none, _ => word ++ " from " ++ a
  | none, some b, _ => word ++ " to " ++ b
  | none, none, some u => word ++ " " ++ u
  | none, none, none => word

def boundText (sign : String) : Option Float → String
  | none => ""
  | some x => " [" ++ sign ++ " " ++ Decimal.plain.write x ++ "]"

def text (c : Context) : String :=
  c.rule ++ ": Item " ++ c.method.item ++ " " ++ c.triggerText ++
    boundText "<" c.method.bounds.lt ++ boundText "<=" c.method.bounds.lte ++
    boundText ">" c.method.bounds.gt ++ boundText ">=" c.method.bounds.gte

/-- Whether a state named by a method, if it names one, is the given one. -/
def agrees (wanted state : Option String) : Bool :=
  match wanted with
  | none => true
  | some _ => wanted == state

def statesMatch (m : Method) (e : Event) : Bool :=
  match m.trigger with
  | .changed => agrees m.fromState e.previous && agrees m.toState (some e.state)
  | .receivedUpdate | .receivedCommand => agrees m.update (some e.state)

def holds (bound : Option Float) (test : Float → Bool) : Bool :=
  match bound with
  | none => true
  | some x => test x

def within (b : Bounds) (x : Float) : Bool :=
  holds b.lt (fun t => x < t) && holds b.lte (fun t => x ≤ t) && holds b.gt (fun t => t < x) &&
    holds b.gte (fun t => t ≤ x)

def boundsMatch (b : Bounds) (e : Event) : Bool :=
  if b.isSet then
    match e.number? with
    | some x => within b x
    | none => false
  else true

def hits (c : Context) (e : Event) : Bool :=
  e.item == c.method.item && e.kind == c.method.trigger && statesMatch c.method e &&
    boundsMatch c.method.bounds e

/-- Puts the values of an event into a template, one placeholder after the other. -/
def fill (e : Event) (template : String) : String :=
  let s := Text.replaceAll "\x7bitem\x7d" e.item template
  let s := Text.replaceAll "\x7bstate\x7d" e.state s
  Text.replaceAll "\x7bprevious\x7d" (e.previous.getD "") s

/-- Templates stay as they are when the method does not take the event. -/
def render (c : Context) (e : Event) (template : String) : String :=
  if c.method.takesEvent then fill e template else template

def perform (c : Context) (e : Event) : Action → Effect
  | .command item value => .command (c.render e item) (c.render e value)
  | .update item value => .update (c.render e item) (c.render e value)
  | .log text => .log (c.render e text)

def invoke (c : Context) (e : Event) : List Effect := c.method.actions.map (c.perform e)

end Context

end LiveRules
