/-!
# Progress of a workflow

Each pending step reports a number. A step stagnates when its number does not exceed the one before,
and the first number has nothing to exceed and never stagnates. A workflow is stagnant once a given
number of steps in a row have stagnated.
-/

namespace AgentChain

/-- What is known of the progress of a workflow. -/
structure Progress where
  /-- The number of the last step, if there was one. -/
  last : Option Float
  /-- How many steps in a row have stagnated. -/
  stagnantSteps : UInt32
  /-- How many stagnating steps in a row are too many. -/
  threshold : UInt32

namespace Progress

def start (threshold : UInt32) : Progress :=
  { last := none, stagnantSteps := 0, threshold }

/-- Take in the number of a step. A number that is not comparable counts as no increase. -/
def observe (p : Progress) (value : Float) : Progress :=
  match p.last with
  | none => { p with last := some value }
  | some previous =>
    { p with
      last := some value
      stagnantSteps := if value > previous then 0 else p.stagnantSteps + 1 }

theorem threshold_observe (p : Progress) (value : Float) :
    (p.observe value).threshold = p.threshold := by
  unfold observe
  split <;> rfl

theorem last_observe (p : Progress) (value : Float) : (p.observe value).last = some value := by
  unfold observe
  split <;> rfl

def isStagnant (p : Progress) : Bool :=
  p.threshold ≤ p.stagnantSteps

end Progress

end AgentChain
