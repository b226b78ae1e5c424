import AgentChain.Workflow.Basic
import AgentChain.Workflow.Progress

/-!
# The state machine of a run

A run starts idle, then runs step after step, and ends complete or aborted. The machine is fed with
the results of steps. It keeps the history and decides whether the run goes on: a pending step
aborts the run when the progress stagnates, else when the step was the last one allowed. A run that
has ended stays as it is whatever it is fed.
-/

namespace AgentChain.Workflow

/-- The state of a workflow, with its history and its progress. -/
structure Machine where
  limits : Limits
  state : State
  progress : Progress
  /-- The records of the executed steps, oldest first. -/
  history : List Record

namespace Machine

def new (limits : Limits) : Machine :=
  { limits, state := .idle, progress := .start limits.stagnationThreshold, history := [] }

def currentStep? (m : Machine) : Option UInt32 :=
  match m.state with
  | .running step => some step
  | _ => none

/-- Start an idle machine with step one; another machine refuses and gives its state. -/
def start (m : Machine) : Except State Machine :=
  match m.state with
  | .idle => .ok { m with state := .running 1 }
  | other => .error other

def started (limits : Limits) : Machine :=
  { new limits with state := .running 1 }

theorem start_new (limits : Limits) : (new limits).start = .ok (started limits) := rfl

def complete (m : Machine) (record : Record) (result : Json.Value) : Machine :=
  match m.state with
  | .running _ => { m with state := .complete result, history := m.history ++ [record] }
  | _ => m

/-- Where a run stands after step `step` was pending and left the given progress. -/
def stateAfter (limits : Limits) (step : UInt32) (progress : Progress) : State :=
  if progress.isStagnant then .aborted (.stagnant step limits.stagnationThreshold)
  else if limits.maxSteps ≤ step then .aborted (.stepLimitExceeded limits.maxSteps)
  else .running (step + 1)

def pending (m : Machine) (record : Record) (value : Float) : Machine :=
  match m.state with
  | .running step =>
    let progress := m.progress.observe value
    { m with
      state := stateAfter m.limits step progress
      progress
      history := m.history ++ [record] }
  | _ => m

def abort (m : Machine) (record : Option Record) (reason : AbortReason) : Machine :=
  if m.state.isTerminal then m
  else { m with state := .aborted reason, history := m.history ++ record.toList }

end Machine

end AgentChain.Workflow
