import LiveRules.Engine.Context

/-!
Generations. A generation holds the instances of one load and their contexts; every context that
matches an event fires, in order. The engine has one current generation.
-/

namespace LiveRules

structure Generation where
  id : Nat
  instances : List Instance
  deriving DecidableEq

namespace Generation

def empty (id : Nat) : Generation := ⟨id, []⟩

def contexts (g : Generation) : List Context := g.instances.flatMap Context.ofInstance

def matching (g : Generation) (e : Event) : List Context := g.contexts.filter fun c => c.hits e

def fire (g : Generation) (e : Event) : List (Context × List Effect) :=
  (g.matching e).map fun c => (c, c.invoke e)

end Generation

/-- Rules that fired, with their effects. -/
abbrev Dispatch := List (String × List Effect)

structure Engine where
  current : Generation := Generation.empty 0
  deriving DecidableEq

namespace Engine

/-- Drops all contexts; the number of the generation stays. -/
def reset (x : Engine) : Engine := ⟨Generation.empty x.current.id⟩

def activate (_ : Engine) (g : Generation) : Engine × List Note :=
  (⟨g⟩, [note "engine" ("generation " ++ toString g.id ++ " active with " ++
    toString g.contexts.length ++ " rule(s)")])

def dispatch (x : Engine) (e : Event) : Dispatch × List Note :=
  let fired := x.current.fire e
  (fired.map fun f => (f.1.rule, f.2),
    fired.map fun f => quietNote "engine" (f.1.rule ++ " fired " ++ toString f.2.length ++
      " effect(s)"))

end Engine

end LiveRules
