import AgentChain.Proofs.Engine.Records
import AgentChain.Proofs.Engine.Soundness

/-!
# Agents that a run comes to

A run comes to one step after another, and what becomes of the last of them is open: the run may end
there, or fail. The machine moves on only after a pending step, and the agent that such a step names
was looked up. So if the first agent of a run is known, then the agent of every step is, and an
unknown agent comes from the document of the last step.
-/

namespace AgentChain.Engine

open AgentChain.Action
open Workflow (AbortReason Machine Record Status State)

variable {S : Type} {setting : Setting S} {m : Machine} {n k : UInt32} {task task' : Task}
  {s s' u : Session S} {v : Visit S} {visits : List (Visit S)}

/-- From a machine, a task and a session on, a run comes to a step: the step has the number `n` and
is for another task, and the session is another one then. All steps before it gave a result; what
becomes of the step itself is open. -/
inductive Comes (setting : Setting S) :
    Machine → Task → Session S → UInt32 → Task → Session S → Prop
  | here {m : Machine} {n : UInt32} (task : Task) (s : Session S) (hn : m.currentStep? = some n) :
    Comes setting m task s n task s
  | later {m : Machine} {n k : UInt32} {task task' : Task} {s s' t : Session S} {result : Result}
    (hn : m.currentStep? = some n) (hstep : (step setting n task).result s = (.ok result, t))
    (rest : Comes setting (result.feed m) (result.next task) t k task' s') :
    Comes setting m task s k task' s'

namespace Comes

theorem exists_currentStep (h : Comes setting m task s n task' s') :
    ∃ k, m.currentStep? = some k := by
  cases h with
  | here _ _ hn => exact ⟨_, hn⟩
  | later hn _ _ => exact ⟨_, hn⟩

/-- If the first agent is known, so is the agent of every step that the run comes to: the machine
moves on only after a pending step, and the agent that such a step names was looked up. -/
theorem known (h : Comes setting m task s n task' s') (hknown : (setting.module? task.agent).isSome) :
    (setting.module? task'.agent).isSome := by
  induction h with
  | here => exact hknown
  | @later m n k task task' s s' t result hn hstep rest ih =>
    obtain ⟨k', hk'⟩ := rest.exists_currentStep
    obtain ⟨-, record, progress, next, rfl⟩ :=
      pending_of_feed_running (state_of_currentStep? hn) (state_of_currentStep? hk')
    exact ih (step_recorded hknown hstep).of_pending.2.2

end Comes

/-- The visits of a trail are steps that the run came to. -/
theorem Trail.comes (h : Trail setting m task s visits m' u) (hv : v ∈ visits) :
    Comes setting m task s v.number v.task v.before := by
  induction h with
  | ended => simp at hv
  | step hn hstep rest ih =>
    rcases List.mem_cons.1 hv with rfl | hv
    · exact .here _ _ hn
    · exact .later hn hstep (ih hv)

/-- A running machine is aborted for one of its limits after a pending step, and for anything else by
a step that aborts. -/
theorem abort_of_feed {result : Result} (hrun : m.state = .running k)
    (h : (result.feed m).state = .aborted reason) :
    (∃ record, result = .abort record reason) ∨
      reason = .stagnant k m.limits.stagnationThreshold ∨
      reason = .stepLimitExceeded m.limits.maxSteps := by
  cases result with
  | complete record result => simp [Result.feed, Machine.complete, hrun] at h
  | pending record progress next =>
    simp only [Result.feed, Machine.pending, hrun, Machine.stateAfter] at h
    split_ifs at h
    · exact .inr (.inl (State.aborted.inj h).symm)
    · exact .inr (.inr (State.aborted.inj h).symm)
  | abort record other =>
    simp only [Result.feed, Machine.abort, hrun, State.isTerminal, Bool.false_eq_true, if_false,
      State.aborted.injEq] at h
    exact .inl ⟨record, by rw [h]⟩

end AgentChain.Engine
