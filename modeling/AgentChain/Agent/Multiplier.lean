import AgentChain.Agent.Output
import AgentChain.Decimal.Layout

/-!
# The multiplier

Multiplies the `number` of its payload by a factor: the `factor` of the payload, else the
`default_factor` of the configuration, else two. With `return_to` in the payload the product is
handed back to that agent as the `processed_result` of the `original_payload`.
-/

namespace AgentChain.Agent.Multiplier

def name : String :=
  "multiplier"

def number? (v : Json.Value) (member : String) : Option Float :=
  (v.member? member).bind Json.Value.float?

def factor (input config : Json.Value) : Float :=
  ((number? input "factor").or (number? config "default_factor")).getD 2.0

def delay? (config : Json.Value) : Option UInt64 :=
  (config.member? "delay_ms").bind Json.Value.natural?

def answer (input : Json.Value) (product : Float) : Output :=
  match (input.member? "return_to").bind Json.Value.text? with
  | none => .complete (.ofFloat product)
  | some target =>
    let kept := match input.member? "original_payload" with
      | some (.object members) => members
      | _ => []
    .delegate product target
      (.object (Json.setMember "processed_result" (.ofFloat product) kept)) none

def program : Program where
  run input config :=
    let number := (number? input "number").getD 0.0
    let factor := factor input config
    let product := number * factor
    let written := Decimal.Layout.message.render
    { calls :=
        ((delay? config).map .sleep).toList ++
          [.log name s!"{written number} x {written factor} = {written product}"]
      answer := .ok (answer input product) }

end AgentChain.Agent.Multiplier
