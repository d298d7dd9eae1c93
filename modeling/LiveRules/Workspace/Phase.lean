/-!
Phases of a workspace, in the order in which it goes through them.
-/

namespace LiveRules

inductive Phase where
  | uninitialized
  | foldersReady
  | stubsGenerated
  | itemsCompiled
  | rulesCompiled
  | instancesLoaded
  | watching
  | reloading
  | disposed
  deriving DecidableEq, Inhabited

namespace Phase

def label : Phase → String
  | .uninitialized => "uninitialized"
  | .foldersReady => "folders ready"
  | .stubsGenerated => "stubs generated"
  | .itemsCompiled => "items compiled"
  | .rulesCompiled => "rules compiled"
  | .instancesLoaded => "instances loaded"
  | .watching => "watching"
  | .reloading => "reloading"
  | .disposed => "disposed"

/-- The place of a phase in the order. -/
def rank : Phase → Nat
  | .uninitialized => 0
  | .foldersReady => 1
  | .stubsGenerated => 2
  | .itemsCompiled => 3
  | .rulesCompiled => 4
  | .instancesLoaded => 5
  | .watching => 6
  | .reloading => 7
  | .disposed => 8

/-- The phase that a reload goes back to. -/
def resumed : Phase → Phase
  | .reloading => .watching
  | phase => phase

end Phase

end LiveRules
