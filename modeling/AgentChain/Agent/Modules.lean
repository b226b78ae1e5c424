import AgentChain.Agent.DotProduct
import AgentChain.Text.Quoted

/-!
# Modules

A module table has the behaviours of agents under their module paths.
-/

namespace AgentChain.Agent

/-- Behaviours of agents under their module paths, in ascending order of the paths. -/
structure Modules where
  entries : List (String × Program)

namespace Modules

def get? (m : Modules) (path : String) : Option Program :=
  Json.lookup? path m.entries

def paths (m : Modules) : List String :=
  m.entries.map (·.1)

/-- The agents of this library: the dot product as the first agent of a workflow, and the
multiplier. -/
def builtin : Modules where
  entries := Json.sortMembers [
    (modulePath rootName, DotProduct.program), (modulePath Multiplier.name, Multiplier.program)]

def empty : Modules where
  entries := []

def description (m : Modules) : String :=
  "[" ++ ", ".intercalate (m.paths.map Text.quoted) ++ "]"

end Modules

end AgentChain.Agent
