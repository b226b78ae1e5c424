import AgentChain.Document.Record
import AgentChain.Text.Blank

/-!
# Agents and the agent registry

An agent is a directory of sources with a module path under which it can be called. A registry lists
the agents that are shipped together and names the one that a workflow starts with. Every name
should occur once, every module path should say something, and the first agent of a workflow should
be listed.
-/

namespace AgentChain

namespace Agent

def rootName : String :=
  "root"

def modulePath (name : String) : String :=
  s!"agents.{name}.main"

def isInitial (c : Char) : Bool :=
  ('a' ≤ c && c ≤ 'z') || ('0' ≤ c && c ≤ '9')

def isPart (c : Char) : Bool :=
  isInitial c || c = '_' || c = '-'

/-- The agent whose sources a directory of the workspace holds: `agent` is the first agent of the
workflow, `agent-NAME` the agent `NAME`, and other directories hold no agent. -/
def nameOfDirectory? (directory : String) : Option String :=
  if directory = "agent" then some rootName
  else
    let marker := "agent-".toList
    if marker.isPrefixOf directory.toList then
      match directory.toList.drop marker.length with
      | c :: rest =>
        if isInitial c && rest.all isPart then some (String.ofList (c :: rest)) else none
      | [] => none
    else none

structure Descriptor where
  name : String
  /-- The directory of the sources; within a shipped code tree it is relative to that tree. -/
  sourceDir : String
  modulePath : String
  deriving DecidableEq, Repr

namespace Descriptor

def toValue (a : Descriptor) : Json.Value :=
  .object [
    ("name", .string a.name), ("sourceDir", .string a.sourceDir),
    ("modulePath", .string a.modulePath)]

def ofDocument? (d : Document) : Option Descriptor := do
  let f ← d.fields? ["name", "sourceDir", "modulePath"]
  let name ← f.required? "name" Document.text?
  let sourceDir ← f.required? "sourceDir" Document.text?
  let modulePath ← f.required? "modulePath" Document.text?
  return { name, sourceDir, modulePath }

end Descriptor

end Agent

/-- The agents that are shipped together. -/
structure Registry where
  agents : List Agent.Descriptor
  /-- The name of the agent that a workflow starts with. -/
  rootAgent : String
  deriving DecidableEq, Repr

/-- The modules of agents, in ascending order of the names of the agents. -/
abbrev Agent.Table := List (String × String)

namespace Registry

def get? (r : Registry) (name : String) : Option Agent.Descriptor :=
  r.agents.find? fun a => a.name == name

inductive Flaw where
  | repeatedName (name : String)
  | emptyModulePath (name : String)
  | unlistedRoot (name : String)
  deriving DecidableEq, Repr

def Flaw.message : Flaw → String
  | repeatedName name => s!"duplicate agent name '{name}'"
  | emptyModulePath name => s!"agent '{name}' has empty modulePath"
  | unlistedRoot name => s!"root agent '{name}' is not listed in agents"

/-- The flaws of agents that come after agents with the given names. -/
def agentFlaws (seen : List String) : List Agent.Descriptor → List Flaw
  | [] => []
  | a :: rest =>
    (if a.name ∈ seen then [.repeatedName a.name] else []) ++
      (if Text.isAllBlank a.modulePath then [.emptyModulePath a.name] else []) ++
      agentFlaws (a.name :: seen) rest

def flaws (r : Registry) : List Flaw :=
  agentFlaws [] r.agents ++
    (if (r.get? r.rootAgent).isNone then [.unlistedRoot r.rootAgent] else [])

def toValue (r : Registry) : Json.Value :=
  .object [
    ("agents", .array (r.agents.map Agent.Descriptor.toValue)),
    ("rootAgent", .string r.rootAgent)]

def ofDocument? (d : Document) : Option Registry := do
  let f ← d.fields? ["agents", "rootAgent"]
  let agents ← f.required? "agents" (Document.list? Agent.Descriptor.ofDocument?)
  let rootAgent ← f.required? "rootAgent" Document.text?
  return { agents, rootAgent }

end Registry

end AgentChain
