import AgentChain.Sandbox.Basic
import AgentChain.Session
import AgentChain.Workflow.Machine

/-!
# The engine

The engine runs a workflow in a sandbox. Each step gets a fresh trace id: it is written on the input
tape with the payload, the output tape of the step before is removed, and the module of the agent is
called. The output tape must carry the trace id and follow its rules; then it completes the workflow
or names the next task. The state machine decides whether the workflow goes on.
-/

namespace AgentChain.Engine

open Workflow (AbortReason Machine Record Status State)

variable {S : Type}

/-- A sandbox with the modules of the agents, and the bounds of a run. -/
structure Setting (S : Type) where
  box : Sandbox S
  table : Agent.Table
  limits : Workflow.Limits
  /-- How long one step may take, in milliseconds. -/
  timeoutMs : Option Nat

def Setting.module? (setting : Setting S) (agent : String) : Option String :=
  Json.lookup? agent setting.table

/-! ### One step -/

/-- The largest time in milliseconds that a record can hold, or less. -/
def saturated (ms : Nat) : UInt64 :=
  if ms < UInt64.size then UInt64.ofNat ms else 0xffffffffffffffff

/-- What a step leads to: a record of it, and how the workflow goes on. -/
inductive Result where
  | complete (record : Record) (result : Json.Value)
  /-- The step names the next task. -/
  | pending (record : Record) (progress : Float) (next : Task)
  /-- The step ends the workflow; an agent that is not known leaves no record. -/
  | abort (record : Option Record) (reason : AbortReason)

def Result.feed (m : Machine) : Result → Machine
  | complete record result => m.complete record result
  | pending record progress _ => m.pending record progress
  | abort record reason => m.abort record reason

def Result.next (task : Task) : Result → Task
  | pending _ _ next => next
  | _ => task

/-- Read the output tape. -/
def readOutput (box : Sandbox S) : Action (Session S) (Except String Json.Value) := do
  match ← (Session.onState (box.readBytes Sandbox.outputTape)).attempt with
  | .error f => return .error ("read output tape: " ++ f.message)
  | .ok none => return .error "agent wrote no output tape"
  | .ok (some raw) =>
    match raw.text?.bind Json.read? with
    | some v => return .ok v
    | none => return .error "output tape is not valid JSON: malformed document"

def finishedEvent (step : UInt32) (agent : String) (status : Status) (progress : Option Float) :
    Event :=
  (Event.make "engine" .info "step_finished").field "step" (.ofUInt32 step)
    |>.field "agent" (.string agent) |>.field "status" (.string status.text)
    |>.field "progress" (.ofOption .ofFloat progress)

/-- What an output tape leads to, and the events that say so. -/
def judge (setting : Setting S) (step : UInt32) (agent traceId : String)
    (record : Status → Option Float → Record) (output : Json.Value) : Result × List Event :=
  match OutputTape.checkTrace output traceId with
  | .error actual =>
    (.abort (record .failed none) (.traceMismatch step traceId actual), [])
  | .ok () =>
    match OutputTape.interpret output with
    | .error flaw => (.abort (record .failed none) (.invalidResponse step flaw.message), [])
    | .ok (.complete result progress) =>
      (.complete (record .complete progress) result, [finishedEvent step agent .complete progress])
    | .ok (.pending progress next) =>
      let finished := finishedEvent step agent .pending (some progress)
      match setting.module? next.agent with
      | none =>
        (.abort (record .pending (some progress)) (.unknownAgent step next.agent), [finished])
      | some _ => (.pending (record .pending (some progress)) progress next, [finished])

/-- What a call leads to. -/
def afterCall (setting : Setting S) (step : UInt32) (agent traceId : String) :
    Sandbox.Ending × UInt64 → Action (Session S) Result
  | (ending, elapsedMs) => do
    let record (status : Status) (progress : Option Float) : Record :=
      { step, agent, traceId, status, progress, elapsedMs }
    match ending with
    | .failed reason =>
      return .abort (record .failed none) (.invalidResponse step ("agent failed: " ++ reason))
    | .timedOut =>
      let limit := (setting.timeoutMs.map saturated).getD 0
      return .abort (record .failed none) (.stepTimeout step agent limit)
    | .finished =>
      match ← readOutput setting.box with
      | .error reason => return .abort (record .failed none) (.invalidResponse step reason)
      | .ok output =>
        let (result, events) := judge setting step agent traceId record output
        Session.onWorld (World.reportAll events)
        return result

def startedEvent (step : UInt32) (agent traceId : String) : Event :=
  (Event.make "engine" .debug "step_started").field "step" (.ofUInt32 step)
    |>.field "agent" (.string agent) |>.field "trace_id" (.string traceId)

/-- Hand a task over to its agent: draw a trace id, write it on the input tape with the payload, and
remove the output tape of the step before. -/
def handOver (setting : Setting S) (step : UInt32) (task : Task) : Action (Session S) String := do
  let traceId ← Session.onWorld World.draw
  let tape : InputTape := { traceId, payload := task.input }
  Session.onState (setting.box.writeFile Sandbox.inputTape (Bytes.ofText tape.toValue.compact))
  Session.onState (setting.box.removeFile Sandbox.outputTape)
  Session.report (startedEvent step task.agent traceId)
  return traceId

/-- Call the module of an agent. -/
def call (setting : Setting S) (task : Task) (module : String) :
    Action (Session S) (Sandbox.Ending × UInt64) :=
  Session.onState (setting.box.invoke {
    module, config := task.config, timeoutMs := setting.timeoutMs })

/-- One step: hand a task over, call its agent, and judge the answer. -/
def step (setting : Setting S) (step : UInt32) (task : Task) : Action (Session S) Result :=
  match setting.module? task.agent with
  | none => return .abort none (.unknownAgent step task.agent)
  | some module => do
    let traceId ← handOver setting step task
    let ending ← call setting task module
    afterCall setting step task.agent traceId ending

/-! ### Runs -/

/-- Make steps until the workflow is over. -/
def loop (setting : Setting S) : (fuel : Nat) → Machine → Task → Action (Session S) Machine
  | 0, m, _ => return m
  | fuel + 1, m, task =>
    match m.currentStep? with
    | none => return m
    | some n => do
      let result ← step setting n task
      loop setting fuel (result.feed m) (result.next task)

/-- A workflow that is over, with its history. -/
structure Run where
  state : State
  history : List Record

namespace Run

/-- The result of a run, or the failure that it ended in. -/
def outcome (r : Run) : Except Failure Json.Value :=
  match r.state with
  | .complete result => .ok result
  | .aborted reason => .error (.aborted reason)
  | other => .error (.refusal (.unfinished other.description))

def status (r : Run) : String :=
  match r.state with
  | .complete _ => "complete"
  | .aborted _ => "aborted"
  | _ => "incomplete"

def isAborted (r : Run) : Bool :=
  match r.state with
  | .aborted _ => true
  | _ => false

def report (r : Run) (runId : String) : Json.Value :=
  .object ([("run_id", .string runId), ("status", .string r.status)] ++
    (match r.state with
      | .complete result => [("result", result)]
      | .aborted reason => [("abort", reason.toValue)]
      | _ => []) ++
    [("history", .array (r.history.map Record.toValue))])

end Run

def sortedObject : Json.Value → Json.Value
  | .object members => .object (Json.sortMembers members)
  | v => v

def endEvent? (r : Run) : Option Event :=
  match r.state with
  | .complete _ =>
    some ((Event.make "engine" .info "workflow_complete").field "steps" (.ofCount r.history.length))
  | .aborted reason =>
    some ((Event.make "engine" .error "workflow_aborted").field "steps" (.ofCount r.history.length)
      |>.field "reason" (sortedObject reason.toValue))
  | _ => none

def startEvent (setting : Setting S) (rootAgent : String) : Event :=
  (Event.make "engine" .info "workflow_started").field "root_agent" (.string rootAgent)
    |>.field "max_steps" (.ofUInt32 setting.limits.maxSteps)

/-- Run a workflow from its first agent. -/
def run (setting : Setting S) (rootAgent : String) (input config : Json.Value) :
    Action (Session S) Run := do
  Session.report (startEvent setting rootAgent)
  let machine ← loop setting setting.limits.stepBound (.started setting.limits)
    { agent := rootAgent, input, config }
  let r : Run := { state := machine.state, history := machine.history }
  Session.onWorld (World.reportAll (endEvent? r).toList)
  return r

end AgentChain.Engine
