import LiveRules.Artifact
import LiveRules.Decimal.Reading
import LiveRules.Text.Blank

/-!
Events of items: a state that changed, or an update or command that came in.
-/

namespace LiveRules

structure Event where
  item : String
  kind : Trigger
  state : String
  previous : Option String := none
  deriving DecidableEq, Inhabited

/-- The state as a number. -/
def Event.number? (e : Event) : Option Float := Decimal.read? (Text.trimChars e.state.toList)

end LiveRules
