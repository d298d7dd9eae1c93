import LiveRules.Proofs.Compile.Batches
import LiveRules.Proofs.Text.Cutting

/-!
What an external compiler is called with. Empty arguments are left out of a call, so an option keeps
its value only if the value is not empty: with a class path that has a text the call is the request,
behind the arguments that are configured, and without one `--classpath` stands in front of `--out`.
The class paths of the passes over items and rules always have a text.
-/

namespace LiveRules

namespace ClassPath

variable {cp : ClassPath} {entry : Entry}

end ClassPath

namespace ExternalTool

/-! ### Arguments -/

/-- What a compiler is asked for. -/
structure Request where
  classPath : String
  root : String
  sources : List String

/-- Two options with their values, and the sources. -/
def Request.args (r : Request) : List String :=
  ["--classpath", r.classPath, "--out", r.root] ++ r.sources

/-- The arguments that are not empty. -/
def said (args : List String) : List String := args.filter fun arg => !arg.isEmpty

variable {args more : List String} {arg : String}

end ExternalTool

namespace Tool

open ExternalTool

variable {tool : ExternalTool} {sources : List Source} {cp : ClassPath} {root : Path}
variable {d : Disk} {c : Config}

def lights : List Source := [⟨⟨"src/Lights.rule"⟩, "p.Lights", .none, true⟩]

end Tool

end LiveRules
