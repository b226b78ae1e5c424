import AgentChain.Json.Printer
import AgentChain.Text.Quoted
import AgentChain.Workflow.Machine

/-!
# Descriptions of states

A machine that refuses to start says which state it is in: the name of the state with its parts,
texts in quotes and values with their kinds.
-/

namespace AgentChain

namespace Json.Value

mutual

def description : Value → String
  | .null => "Null"
  | .bool true => "Bool(true)"
  | .bool false => "Bool(false)"
  | .number n => "Number(" ++ String.ofList n.chars ++ ")"
  | .string s => "String(" ++ Text.quoted s ++ ")"
  | .array items => "Array [" ++ ", ".intercalate (descriptions items) ++ "]"
  | .object members => "Object \x7b" ++ ", ".intercalate (memberDescriptions members) ++ "\x7d"

def descriptions : List Value → List String
  | [] => []
  | v :: rest => description v :: descriptions rest

def memberDescriptions : List (String × Value) → List String
  | [] => []
  | (name, v) :: rest => (Text.quoted name ++ ": " ++ description v) :: memberDescriptions rest

end

end Json.Value

namespace Workflow

def withParts (name : String) (parts : List (String × String)) : String :=
  name ++ " \x7b " ++ ", ".intercalate (parts.map fun p => p.1 ++ ": " ++ p.2) ++ " \x7d"

namespace AbortReason

def description : AbortReason → String
  | invalidResponse step reason =>
    withParts "InvalidResponse" [("step", s!"{step}"), ("reason", Text.quoted reason)]
  | traceMismatch step expected actual =>
    withParts "TraceMismatch" [
      ("step", s!"{step}"), ("expected", Text.quoted expected),
      ("actual", match actual with
        | some id => "Some(" ++ Text.quoted id ++ ")"
        | none => "None")]
  | unknownAgent step agent =>
    withParts "UnknownAgent" [("step", s!"{step}"), ("agent", Text.quoted agent)]
  | stagnant step threshold =>
    withParts "Stagnant" [("step", s!"{step}"), ("threshold", s!"{threshold}")]
  | stepLimitExceeded maxSteps =>
    withParts "StepLimitExceeded" [("max_steps", s!"{maxSteps}")]
  | stepTimeout step agent timeoutMs =>
    withParts "StepTimeout" [
      ("step", s!"{step}"), ("agent", Text.quoted agent), ("timeout_ms", s!"{timeoutMs}")]

end AbortReason

namespace State

def description : State → String
  | idle => "Idle"
  | running step => withParts "Running" [("step", s!"{step}")]
  | complete result => withParts "Complete" [("result", result.description)]
  | aborted reason => "Aborted(" ++ reason.description ++ ")"

def startRefusal (s : State) : String :=
  "cannot start from state " ++ s.description

end State

end Workflow

end AgentChain
