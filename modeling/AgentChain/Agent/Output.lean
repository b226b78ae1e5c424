import AgentChain.Json.Printer
import AgentChain.Registry

/-!
# What an agent answers

An agent is given the payload of its task and its configuration. It may call its host, to log a line
or to sleep, and then completes with a result, hands over to another agent, or fails.
-/

namespace AgentChain.Agent

inductive HostCall where
  | log (agent message : String)
  | sleep (ms : UInt64)
  deriving DecidableEq, Repr

def HostCall.toValue : HostCall → Json.Value
  | log agent message => .object [("agent", .string agent), ("log", .string message)]
  | sleep ms => .object [("sleep_ms", .ofUInt64 ms)]

inductive Output where
  | complete (result : Json.Value)
  | delegate (progress : Float) (agent : String) (input : Json.Value) (config : Option Json.Value)

def Output.toTape (traceId : String) : Output → Json.Value
  | complete result =>
    .object [("result", result), ("status", .string "complete"), ("trace_id", .string traceId)]
  | delegate progress agent input config =>
    let payload : List (String × Json.Value) :=
      (config.map fun c => ("agent_config", c)).toList ++
        [("agent_name", .string agent), ("input_data", input)]
    .object [
      ("action", .object [("payload", .object payload), ("type", .string "run_agent")]),
      ("progress", .ofFloat progress), ("status", .string "pending"),
      ("trace_id", .string traceId)]

inductive Fault where
  | noVector
  | lengthMismatch (configured given : Nat)
  /-- The reason of an agent that is not of this library. -/
  | other (reason : String)
  deriving DecidableEq, Repr

def Fault.message : Fault → String
  | noVector => "input must carry a numeric `vector`"
  | lengthMismatch configured given =>
    s!"vector length mismatch: config has {configured}, input has {given}"
  | other reason => reason

/-- The calls and the answer of one invocation. -/
structure Turn where
  calls : List HostCall
  answer : Except Fault Output

def Turn.sleptMs (t : Turn) : Nat :=
  t.calls.foldl (fun total call =>
    match call with
    | .log _ _ => total
    | .sleep ms => total + ms.toNat) 0

structure Program where
  run : (input config : Json.Value) → Turn

/-- The numbers of an array that is a member of an object; all of its items must be numbers. -/
def numbers? (v : Json.Value) (name : String) : Option (List Float) :=
  ((v.member? name).bind Json.Value.items?).bind fun items => items.mapM Json.Value.float?

end AgentChain.Agent
