import AgentChain.Document.Record

/-!
# Steps and outcomes of a workflow

A workflow runs agents one after another. Every executed step leaves a record, and a workflow that
stops without a result has a reason.
-/

namespace AgentChain.Workflow

open Document (choice? float? text? uint32? uint64?)

/-- The bounds of a workflow. -/
structure Limits where
  maxSteps : UInt32 := 20
  stagnationThreshold : UInt32 := 5
  deriving DecidableEq, Repr

/-- The most steps that a run can take: a run takes one step whatever its bounds are. -/
def Limits.stepBound (l : Limits) : Nat :=
  max 1 l.maxSteps.toNat

def Limits.toValue (l : Limits) : Json.Value :=
  .object [
    ("max_steps", .ofUInt32 l.maxSteps),
    ("stagnation_threshold", .ofUInt32 l.stagnationThreshold)]

inductive Status where
  | complete
  | pending
  | failed
  deriving DecidableEq, Repr

namespace Status

def text : Status → String
  | complete => "complete"
  | pending => "pending"
  | failed => "failed"

def alternatives : List (String × Status) :=
  [("complete", .complete), ("pending", .pending), ("failed", .failed)]

end Status

/-- What is kept of an executed step. -/
structure Record where
  /-- The number of the step, from one. -/
  step : UInt32
  agent : String
  traceId : String
  status : Status
  progress : Option Float
  elapsedMs : UInt64

namespace Record

def toValue (r : Record) : Json.Value :=
  .object [
    ("step", .ofUInt32 r.step), ("agent", .string r.agent), ("trace_id", .string r.traceId),
    ("status", .string r.status.text), ("progress", .ofOption .ofFloat r.progress),
    ("elapsed_ms", .ofUInt64 r.elapsedMs)]

def ofDocument? (d : Document) : Option Record := do
  let f ← d.fields? ["step", "agent", "trace_id", "status", "progress", "elapsed_ms"]
  let step ← f.required? "step" uint32?
  let agent ← f.required? "agent" text?
  let traceId ← f.required? "trace_id" text?
  let status ← f.required? "status" (choice? Status.alternatives)
  let progress ← f.optional? "progress" float?
  let elapsedMs ← f.required? "elapsed_ms" uint64?
  return { step, agent, traceId, status, progress, elapsedMs }

end Record

/-- Why a workflow was given up. -/
inductive AbortReason where
  | invalidResponse (step : UInt32) (reason : String)
  | traceMismatch (step : UInt32) (expected : String) (actual : Option String)
  | unknownAgent (step : UInt32) (agent : String)
  | stagnant (step threshold : UInt32)
  | stepLimitExceeded (maxSteps : UInt32)
  | stepTimeout (step : UInt32) (agent : String) (timeoutMs : UInt64)
  deriving DecidableEq, Repr

namespace AbortReason

def toValue : AbortReason → Json.Value
  | invalidResponse step reason =>
    .object [
      ("kind", .string "invalid_response"), ("step", .ofUInt32 step), ("reason", .string reason)]
  | traceMismatch step expected actual =>
    .object [
      ("kind", .string "trace_mismatch"), ("step", .ofUInt32 step),
      ("expected", .string expected), ("actual", .ofOption .string actual)]
  | unknownAgent step agent =>
    .object [ ("kind", .string "unknown_agent"), ("step", .ofUInt32 step), ("agent", .string agent)]
  | stagnant step threshold =>
    .object [
      ("kind", .string "stagnant"), ("step", .ofUInt32 step), ("threshold", .ofUInt32 threshold)]
  | stepLimitExceeded maxSteps =>
    .object [("kind", .string "step_limit_exceeded"), ("max_steps", .ofUInt32 maxSteps)]
  | stepTimeout step agent timeoutMs =>
    .object [
      ("kind", .string "step_timeout"), ("step", .ofUInt32 step), ("agent", .string agent),
      ("timeout_ms", .ofUInt64 timeoutMs)]

def ofFields? (kind : String) (d : Document) : Option AbortReason :=
  match kind with
  | "invalid_response" => do
    let f ← d.fields? ["step", "reason"]
    return .invalidResponse (← f.required? "step" uint32?) (← f.required? "reason" text?)
  | "trace_mismatch" => do
    let f ← d.fields? ["step", "expected", "actual"]
    return .traceMismatch (← f.required? "step" uint32?)
      (← f.required? "expected" text?) (← f.optional? "actual" text?)
  | "unknown_agent" => do
    let f ← d.fields? ["step", "agent"]
    return .unknownAgent (← f.required? "step" uint32?) (← f.required? "agent" text?)
  | "stagnant" => do
    let f ← d.fields? ["step", "threshold"]
    return .stagnant (← f.required? "step" uint32?) (← f.required? "threshold" uint32?)
  | "step_limit_exceeded" => do
    let f ← d.fields? ["max_steps"]
    return .stepLimitExceeded (← f.required? "max_steps" uint32?)
  | "step_timeout" => do
    let f ← d.fields? ["step", "agent", "timeout_ms"]
    return .stepTimeout (← f.required? "step" uint32?)
      (← f.required? "agent" text?) (← f.required? "timeout_ms" uint64?)
  | _ => none

/-- Read a reason from its written form: a table with the kind among its entries, or a list that the
kind leads. Nothing in it may be unreadable. -/
def ofDocument? (d : Document) : Option AbortReason :=
  if d.isReadable then
    match d with
    | .table entries =>
      match entries.filter fun e => e.1 == "kind" with
      | [(_, k)] => k.text?.bind fun kind =>
        ofFields? kind (.table (entries.filter fun e => e.1 != "kind"))
      | _ => none
    | .list (k :: rest) => k.text?.bind fun kind => ofFields? kind (.list rest)
    | _ => none
  else none

end AbortReason

/-- Where a workflow is. -/
inductive State where
  | idle
  | running (step : UInt32)
  | complete (result : Json.Value)
  | aborted (reason : AbortReason)

def State.toValue : State → Json.Value
  | idle => .object [("state", .string "idle")]
  | running step => .object [("state", .string "running"), ("step", .ofUInt32 step)]
  | complete result => .object [("state", .string "complete"), ("result", result)]
  | aborted reason => .object [("state", .string "aborted"), ("reason", reason.toValue)]

def State.isTerminal : State → Bool
  | complete _ => true
  | aborted _ => true
  | _ => false

end AgentChain.Workflow
