import AgentChain.Storage
import AgentChain.World

/-!
# Discovery

The agents of a workspace are its directories that follow the naming rule. Each may have a
requirement file. The packages that a workspace requests are all those that its agents declare, and
the bootstrap packages.
-/

namespace AgentChain

/-- The agents of a workspace and the packages that they ask for. -/
structure Discovery where
  /-- The agents in ascending order of their names. -/
  agents : List Agent.Descriptor
  rootAgent : String
  /-- The declared packages, agent by agent. -/
  requirements : List Requirement
  requested : Text.NameSet
  deriving DecidableEq, Repr

namespace Discovery

def toValue (d : Discovery) : Json.Value :=
  .object [
    ("agents", .array (d.agents.map Agent.Descriptor.toValue)), ("root_agent", .string d.rootAgent),
    ("requirements", .array (d.requirements.map Requirement.toValue)),
    ("requested", .ofTexts d.requested)]

def requirementFile : String :=
  "requirements.txt"

structure Found where
  name : String
  path : String
  deriving DecidableEq, Repr

def agentAt (d : Disk) (root directory : String) : Option Found :=
  let path := Path.join root directory
  if d.isDirectory path then (Agent.nameOfDirectory? directory).map fun name => { name, path }
  else none

/-- Whether a directory takes the name of the first agent without being its directory. -/
def isReserved (d : Disk) (root directory : String) : Bool :=
  directory != "agent" && (agentAt d root directory).any fun f => f.name == Agent.rootName

/-- The agent directories among listed directories, in ascending order of the names of the agents. -/
def agentsAmong (root : String) (names : List String) : Action Disk (List Found) := do
  match ← OnDisk.look fun d => names.find? (isReserved d root) with
  | some directory => .fail (.discovery (.reservedName directory Agent.rootName))
  | none =>
    let found ← OnDisk.look fun d => names.filterMap (agentAt d root)
    return found.mergeSort fun a b => decide (a.name ≤ b.name)

/-- The agents in the directories of a workspace. -/
def agentsIn (root : String) : Action Disk (List Found) := do
  agentsAmong root (← (OnDisk.read (·.names root)).within (.on .readWorkspace root))

/-- The requirements of an agent, from the file in its directory. -/
def requirementsOf (agent : Found) : Action Disk (List Requirement) := do
  let path := Path.join agent.path requirementFile
  if ← OnDisk.look (·.isFile path) then
    let contents ← OnDisk.readText path
    match Requirement.parseFile agent.name contents with
    | .ok requirements => return requirements
    | .error flaw => .fail (.within (.within path) (.refusal (.requirement flaw)))
  else return []

def agentEvent (agent : Found) (requirements : List Requirement) : Event :=
  (Event.make "discover" .info "agent_discovered").field "agent" (.string agent.name)
    |>.field "requirements" (.ofCount requirements.length)

/-- The declared packages of agents, which are reported one by one. -/
def requirementsIn : List Found → Action World (List Requirement)
  | [] => return []
  | agent :: rest => do
    let requirements ← World.onDisk (requirementsOf agent)
    World.report (agentEvent agent requirements)
    return requirements ++ (← requirementsIn rest)

def gather (root : String) (bootstrap : List String) (found : List Found) :
    Action World Discovery := do
  if found.isEmpty then
    World.report ((Event.make "discover" .error "no_agents").field "root" (.string root))
    .fail (.discovery (.noAgents root))
  else if !found.any fun f => f.name == Agent.rootName then
    let names := found.map (·.name)
    World.report
      ((Event.make "discover" .error "missing_root_agent").field "found" (.ofTexts names))
    .fail (.discovery (.missingRoot root names))
  else
    let requirements ← requirementsIn found
    let requested := Text.NameSet.ofList (requirements.map (·.name) ++ bootstrap)
    World.report ((Event.make "discover" .info "requirements_collected").field "agents"
      (.ofCount found.length) |>.field "requested" (.ofTexts requested))
    return {
      agents := found.map fun f =>
        { name := f.name, sourceDir := f.path, modulePath := Agent.modulePath f.name }
      rootAgent := Agent.rootName
      requirements
      requested }

/-- Look a workspace through. -/
def scan (root : String) (bootstrap : List String) : Action World Discovery := do
  gather root bootstrap (← World.onDisk (agentsIn root))

end Discovery

end AgentChain
