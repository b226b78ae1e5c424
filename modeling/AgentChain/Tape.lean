import AgentChain.Document.Record
import AgentChain.Schema

/-!
# Tapes

The engine and an agent exchange two documents. The input tape carries a trace id and the payload of
the task. The output tape must carry the same trace id, and says either that the work is complete,
with a result, or that it is pending, with the next agent to run and a number for the progress made.
-/

namespace AgentChain

/-- What an agent is given. -/
structure InputTape where
  traceId : String
  payload : Json.Value

namespace InputTape

def toValue (t : InputTape) : Json.Value :=
  .object [("trace_id", .string t.traceId), ("payload", t.payload)]

def ofDocument? (d : Document) : Option InputTape := do
  let f ← d.fields? ["trace_id", "payload"]
  let traceId ← f.required? "trace_id" Document.text?
  let payload ← f.required? "payload" Document.value?
  return { traceId, payload }

end InputTape

/-- An agent to be called, with its input and its configuration. -/
structure Task where
  agent : String
  input : Json.Value
  config : Json.Value

/-- What an output tape says. -/
inductive Answer where
  | complete (result : Json.Value) (progress : Option Float)
  | pending (progress : Float) (next : Task)

def Answer.toValue : Answer → Json.Value
  | complete result progress =>
    .object [("complete", .object [ ("result", result), ("progress", .ofOption .ofFloat progress)])]
  | pending progress next =>
    .object [("pending", .object [
      ("progress", .ofFloat progress), ("agent_name", .string next.agent), ("input", next.input),
      ("config", next.config)])]

namespace OutputTape

def traceId? (output : Json.Value) : Option String :=
  (output.member? "trace_id").bind Json.Value.text?

/-- Whether an output tape carries the expected trace id; if it does not, the one it carries. -/
def checkTrace (output : Json.Value) (expected : String) : Except (Option String) Unit :=
  if traceId? output = some expected then .ok () else .error (traceId? output)

/-! ### The rules of an output tape -/

/-- A text that is not empty. -/
def named : Schema :=
  .all [.kind .text, .minLength 1]

def payloadRules : Schema :=
  .all [
    .kind .object, .required ["agent_name", "input_data"], .property "agent_name" named,
    .property "input_data" .anything, .property "agent_config" (.kind .object)]

def actionRules : Schema :=
  .all [
    .kind .object, .required ["type", "payload"], .property "type" (.among ["run_agent"]),
    .property "payload" payloadRules]

/-- The rules of an output tape. An action is checked whatever the status; a result is needed for
`complete`, and an action and a progress for `pending`. A tape without a status meets both
conditions. -/
def rules : Schema :=
  .all [
    .kind .object, .required ["trace_id", "status"], .property "trace_id" named,
    .property "status" (.among ["complete", "pending"]), .property "progress" (.kind .number),
    .property "result" .anything, .property "action" actionRules,
    .ifThen (.property "status" (.among ["complete"])) (.required ["result"]),
    .ifThen (.property "status" (.among ["pending"])) (.required ["action", "progress"])]

def flaws (v : Json.Value) : List Schema.Breach :=
  rules.breaches v

inductive Flaw where
  | rules (broken : List Schema.Breach)
  | noProgress
  | noPayload
  | noAgentName
  | unknownStatus
  deriving DecidableEq, Repr

def Flaw.message : Flaw → String
  | rules broken =>
    "output tape failed schema validation: " ++ "; ".intercalate (broken.map Schema.Breach.message)
  | noProgress => "pending response without progress"
  | noPayload => "pending response without action payload"
  | noAgentName => "action payload without agent_name"
  | unknownStatus => "unknown status"

def next? (v : Json.Value) : Except Flaw Task :=
  match (v.member? "action").bind (·.member? "payload") with
  | none => .error .noPayload
  | some payload =>
    match (payload.member? "agent_name").bind Json.Value.text? with
    | none => .error .noAgentName
    | some agent => .ok {
        agent
        input := (payload.member? "input_data").getD .null
        config := (payload.member? "agent_config").getD (.object []) }

/-- What an output tape says, if it keeps the rules. -/
def interpret (v : Json.Value) : Except Flaw Answer :=
  if flaws v = [] then
    let progress := (v.member? "progress").bind Json.Value.float?
    match (v.member? "status").bind Json.Value.text? with
    | some "complete" => .ok (.complete ((v.member? "result").getD .null) progress)
    | some "pending" =>
      match progress with
      | none => .error .noProgress
      | some p => (next? v).map (.pending p)
    | _ => .error .unknownStatus
  else .error (.rules (flaws v))

end OutputTape

end AgentChain
