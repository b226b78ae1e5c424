import AgentChain.Agent.Multiplier

/-!
# The dot product

The agent that a workflow starts with multiplies the `vector` of its payload with the `vector` of
its configuration. A product below the `target_threshold` of the configuration is delegated to
another agent; with `collect_result` that agent is asked to hand its result back, which then arrives
here as `processed_result`.
-/

namespace AgentChain.Agent.DotProduct

def defaultWeights : List Float :=
  [1.0, 2.0, 3.0]

/-- The dot product of two vectors, summed from the left; an empty sum is the negative zero. -/
def dot (weights values : List Float) : Float :=
  (List.zipWith (· * ·) weights values).foldl (· + ·) (-0.0)

/-- Whether a product lies below the threshold of a configuration. -/
def isBelow (config : Json.Value) (product : Float) : Bool :=
  match (config.member? "target_threshold").bind Json.Value.float? with
  | some threshold => product < threshold
  | none => false

def collects (config : Json.Value) : Bool :=
  match config.member? "collect_result" with
  | some (.bool b) => b
  | _ => false

def delegated (input config : Json.Value) (product : Float) : Json.Value :=
  .object (("number", .ofFloat product) ::
    if collects config then
      [("original_payload", input), ("return_to", .string rootName)]
    else [])

def answer (input config : Json.Value) (product : Float) : Output :=
  if isBelow config product then
    .delegate product
      (((config.member? "delegate_to").bind Json.Value.text?).getD Multiplier.name)
      (delegated input config product) none
  else .complete (.ofFloat product)

def turnOnVector (input config : Json.Value) : Turn :=
  let weights := (numbers? config "vector").getD defaultWeights
  match numbers? input "vector" with
  | none => { calls := [], answer := .error .noVector }
  | some values =>
    if weights.length = values.length then
      let product := dot weights values
      { calls := [.log rootName ("dot product " ++ Decimal.Layout.message.render product)]
        answer := .ok (answer input config product) }
    else { calls := [], answer := .error (.lengthMismatch weights.length values.length) }

def program : Program where
  run input config :=
    match input.member? "processed_result" with
    | some processed =>
      { calls := [.log rootName ("received processed result " ++ processed.compact)]
        answer := .ok (.complete processed) }
    | none => turnOnVector input config

end AgentChain.Agent.DotProduct
