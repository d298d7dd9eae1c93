/-!
JSON documents. Members keep their order and may repeat, and numbers keep their spelling, so that
a document says no more and no less than its text.
-/

namespace LiveRules

inductive Json where
  | null
  | bool (value : Bool)
  | number (text : String)
  /-- A text; `none` when its escapes name no character, as with half a surrogate pair. -/
  | text (value : Option String)
  | array (items : List Json)
  | object (members : List (Option String × Json))
  deriving Inhabited

namespace Json

def string (s : String) : Json := .text (some s)

def fields (members : List (String × Json)) : Json :=
  .object (members.map fun m => (some m.1, m.2))

/-- Whether two of a list's keys are the same. -/
def repeats (keys : List String) : Bool :=
  match keys with
  | [] => false
  | k :: ks => ks.contains k || repeats ks

mutual

/-- How many arrays and objects lie in one another. -/
def height : Json → Nat
  | .array items => heightItems items + 1
  | .object members => heightMembers members + 1
  | _ => 0

def heightItems : List Json → Nat
  | [] => 0
  | item :: rest => max (height item) (heightItems rest)

def heightMembers : List (Option String × Json) → Nat
  | [] => 0
  | member :: rest => max (height member.2) (heightMembers rest)

end

end Json

end LiveRules
