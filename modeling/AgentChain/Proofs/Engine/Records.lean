import AgentChain.Proofs.Engine.Trail

/-!
# The history of a run

Every executed step leaves one record, with its number, its agent and the trace id that was drawn
for it. All records but the last are pending. The last one says how the run ended: complete if there
is a result, failed if the step was left without a usable answer, and pending if the answer was in
order but the run could not go on after it. This holds in any sandbox.
-/

namespace AgentChain

namespace Workflow.AbortReason

/-- Whether a run was given up because a step was left without a usable answer. -/
def lacksAnswer : AbortReason → Bool
  | invalidResponse _ _ => true
  | traceMismatch _ _ _ => true
  | stepTimeout _ _ _ => true
  | stagnant _ _ => false
  | stepLimitExceeded _ => false
  | unknownAgent _ _ => false

def step? : AbortReason → Option UInt32
  | invalidResponse n _ => some n
  | traceMismatch n _ _ => some n
  | unknownAgent n _ => some n
  | stagnant n _ => some n
  | stepTimeout n _ _ => some n
  | stepLimitExceeded _ => none

end Workflow.AbortReason

namespace Engine

open Workflow (AbortReason Limits Machine Record Status State)

variable {S : Type} {setting : Setting S} {n : UInt32} {agent traceId : String} {result : Result}
  {visits : List (Visit S)} {task : Task} {s u : Session S} {m m' : Machine}

/-! ### The record of a step -/

/-- The results of a step that was executed: its record carries the number of the step, the agent
and the trace id, and a status that fits the result. -/
inductive Recorded (setting : Setting S) (n : UInt32) (agent traceId : String) : Result → Prop
  | complete (elapsedMs : UInt64) (progress : Option Float) (value : Json.Value) :
    Recorded setting n agent traceId
      (.complete (recordOf n agent traceId elapsedMs .complete progress) value)
  /-- The agent of the next task is known. -/
  | pending (elapsedMs : UInt64) (progress : Float) {next : Task}
    (known : (setting.module? next.agent).isSome) :
    Recorded setting n agent traceId
      (.pending (recordOf n agent traceId elapsedMs .pending (some progress)) progress next)
  /-- There is no usable answer. -/
  | failed (elapsedMs : UInt64) {reason : AbortReason} (lacks : reason.lacksAnswer = true)
    (step : reason.step? = some n) :
    Recorded setting n agent traceId
      (.abort (recordOf n agent traceId elapsedMs .failed none) reason)
  /-- The answer hands over to an agent that is not known. -/
  | unknown (elapsedMs : UInt64) (progress : Float) (next : String) :
    Recorded setting n agent traceId
      (.abort (recordOf n agent traceId elapsedMs .pending (some progress)) (.unknownAgent n next))

theorem recorded_judge (setting : Setting S) (n : UInt32) (agent traceId : String)
    (elapsedMs : UInt64) (output : Json.Value) :
    Recorded setting n agent traceId
      (judge setting n agent traceId (recordOf n agent traceId elapsedMs) output).1 := by
  fun_cases judge with
  | case1 | case2 => exact .failed elapsedMs rfl rfl
  | case3 _ value progress => exact .complete elapsedMs progress value
  | case4 _ progress next => exact .unknown elapsedMs progress next.agent
  | case5 _ progress _ _ _ _ hmodule => exact .pending elapsedMs progress (by simp [hmodule])

theorem Followed.recorded
    (h : Followed setting n agent traceId elapsedMs returned ending result after) :
    Recorded setting n agent traceId result := by
  cases h with
  | failed reason => exact .failed elapsedMs rfl rfl
  | timedOut => exact .failed elapsedMs rfl rfl
  | unreadable => exact .failed elapsedMs rfl rfl
  | judged => exact recorded_judge setting n agent traceId elapsedMs _

theorem Recorded.exists_record (h : Recorded setting n agent traceId result) :
    ∃ record, result.record? = some record ∧ record.step = n ∧ record.agent = agent ∧
      record.traceId = traceId := by
  cases h <;> exact ⟨_, rfl, rfl, rfl, rfl⟩

theorem Recorded.of_pending (h : Recorded setting n agent traceId (.pending record progress next)) :
    record.step = n ∧ (record.status = .pending ∧ record.progress.isSome) ∧
      (setting.module? next.agent).isSome := by
  cases h with
  | pending elapsedMs progress known => exact ⟨rfl, ⟨rfl, rfl⟩, known⟩

theorem step_recorded (hknown : (setting.module? task.agent).isSome)
    (h : (step setting n task).result s = (.ok result, after)) :
    Recorded setting n task.agent (s.world.supply s.world.drawn) result := by
  obtain ⟨hunknown, -, -⟩ | ⟨module, traceId, called, ending, elapsedMs, returned, -, hhanded, -,
    hfollowed⟩ := step_cases h
  · simp [hunknown] at hknown
  · obtain ⟨rfl, -⟩ := handOver_eq_ok_iff.mp hhanded
    exact hfollowed.recorded

/-! ### The last record -/

/-- What the last of `count` records of a run says of its end, where the run can take at most
`bound` steps. -/
structure Closes (bound count : Nat) (last : Record) (state : State) : Prop where
  complete : last.status = .complete ↔ ∃ value, state = .complete value
  failed : last.status = .failed ∧ last.progress = none ↔
    ∃ reason, state = .aborted reason ∧ reason.lacksAnswer = true
  pending : last.status = .pending ∧ last.progress.isSome = true ↔
    ∃ reason, state = .aborted reason ∧ reason.lacksAnswer = false
  /-- A reason that carries the number of a step carries the number of the last one. -/
  step : ∀ reason k, state = .aborted reason → reason.step? = some k → k.toNat = count
  /-- Only a run that has taken all its steps ends for their number. -/
  limit : ∀ maxSteps, state = .aborted (.stepLimitExceeded maxSteps) → count = bound

section Closes

variable {bound : Nat} {last : Record} {reason : AbortReason}

theorem closes_of_failed (hstatus : last.status = .failed) (hprogress : last.progress = none)
    (hlacks : reason.lacksAnswer) (hstep : reason.step? = some n) :
    Closes bound n.toNat last (.aborted reason) where
  complete := by simp [hstatus]
  failed := by simp [hstatus, hprogress, hlacks]
  pending := by simp [hstatus, hlacks]
  step := by
    rintro _ k ⟨⟩ hk
    rw [Option.some.inj (hstep.symm.trans hk)]
  limit := by
    rintro maxSteps ⟨⟩
    cases hlacks

theorem closes_of_pending (hstatus : last.status = .pending) (hprogress : last.progress.isSome)
    (hlacks : reason.lacksAnswer = false) (hstep : ∀ k, reason.step? = some k → k = n)
    (hlimit : ∀ maxSteps, reason = .stepLimitExceeded maxSteps → n.toNat = bound) :
    Closes bound n.toNat last (.aborted reason) where
  complete := by simp [hstatus]
  failed := by simp [hstatus, hlacks]
  pending := by simp [hstatus, hprogress, hlacks]
  step := by
    rintro _ k ⟨⟩ hk
    rw [hstep k hk]
  limit := by
    rintro maxSteps ⟨⟩
    exact hlimit maxSteps rfl

end Closes

theorem Recorded.closes (h : Recorded setting n agent traceId result) (hm : m.Sound)
    (hrun : m.state = .running n) (hend : (result.feed m).state.isTerminal) :
    ∃ record, result.record? = some record ∧
      Closes m.limits.stepBound n.toNat record (result.feed m).state := by
  cases h with
  | complete elapsedMs progress value =>
    refine ⟨_, rfl, ?_⟩
    simp only [Result.feed, Machine.complete, hrun]
    constructor <;> simp [recordOf]
  | failed elapsedMs lacks step =>
    refine ⟨_, rfl, ?_⟩
    simp only [Result.feed, Machine.abort, hrun, State.isTerminal, Bool.false_eq_true, if_false]
    exact closes_of_failed rfl rfl lacks step
  | unknown elapsedMs progress next =>
    refine ⟨_, rfl, ?_⟩
    simp only [Result.feed, Machine.abort, hrun, State.isTerminal, Bool.false_eq_true, if_false]
    exact closes_of_pending rfl rfl rfl (fun k hk => (Option.some.inj hk).symm) (by simp)
  | pending elapsedMs progress known =>
    refine ⟨_, rfl, ?_⟩
    simp only [Result.feed, Machine.pending, hrun, Machine.stateAfter] at hend ⊢
    split_ifs at hend ⊢ with hstagnant hceiling
    · exact closes_of_pending rfl rfl rfl (fun k hk => (Option.some.inj hk).symm) (by simp)
    · refine closes_of_pending rfl rfl rfl (by simp [AbortReason.step?]) fun _ _ => ?_
      obtain ⟨hone, hbound, -⟩ := hm.running n hrun
      rw [UInt32.le_iff_toNat_le] at hceiling
      exact Nat.le_antisymm hbound (Nat.max_le.mpr ⟨hone, hceiling⟩)
    · cases hend

/-! ### The history of a run -/

theorem isTerminal_feed (hrun : m.state = .running n)
    (h : (result.feed m).currentStep? = none) : (result.feed m).state.isTerminal := by
  have hidle : (result.feed m).state ≠ .idle :=
    feed_eq_after m result ▸ Machine.state_after_ne_idle (by simp [hrun]) _
  cases hstate : (result.feed m).state with
  | idle => exact absurd hstate hidle
  | running k => simp [Machine.currentStep?, hstate] at h
  | complete | aborted => rfl

theorem Trail.isTerminal
    (h : Trail setting m task s visits m' u) (hm : m.Sound) (hrun : m.state = .running n) :
    m'.state.isTerminal ∧ m'.history.length ≤ m.limits.stepBound := by
  have hvisits : visits ≠ [] := by
    rintro rfl
    cases h with
    | ended _ _ hcurrent => simp [Machine.currentStep?, hrun] at hcurrent
  obtain ⟨last, hlast, hlimits, hrunning, rfl⟩ := h.exists_last hm hvisits
  refine ⟨isTerminal_feed hrunning h.currentStep?_eq_none, ?_⟩
  rw [← hlimits, ← limits_feed last (visits.getLast hvisits).result]
  exact (sound_feed hlast _).length_le

/-- The history of a run that begins with a known agent: one record for each step, numbered one
after another, all pending but the last, which tells how the run ended. -/
theorem Trail.exists_closes (h : Trail setting m task s visits m' u) (hm : m.Sound)
    (hrun : m.state = .running n) (hknown : (setting.module? task.agent).isSome) :
    ∃ initial last, m'.history = m.history ++ (initial ++ [last]) ∧
      (initial ++ [last]).map (·.step.toNat) = List.range' n.toNat (initial.length + 1) ∧
      (∀ record ∈ initial, record.status = .pending ∧ record.progress.isSome) ∧
      Closes m.limits.stepBound m'.history.length last m'.state := by
  induction h generalizing n with
  | ended _ _ hcurrent => simp [Machine.currentStep?, hrun] at hcurrent
  | @step m _ k task _ _ _ result visits hn hstep rest ih =>
    obtain rfl : k = n := by simpa [Machine.currentStep?, hrun] using hn.symm
    have hrecorded := step_recorded hknown hstep
    cases hnext : (result.feed m).currentStep? with
    | none =>
      cases rest with
      | step hn' => simp [hnext] at hn'
      | ended =>
        obtain ⟨last, hlast, hclose⟩ := hrecorded.closes hm hrun (isTerminal_feed hrun hnext)
        obtain ⟨_, hrecord, hnumber, -, -⟩ := hrecorded.exists_record
        cases hlast.symm.trans hrecord
        obtain ⟨hone, -, hlength, -⟩ := hm.running k hrun
        have hhistory : (result.feed m).history = m.history ++ [last] := by
          rw [history_feed hrun, hlast]
          rfl
        refine ⟨[], last, hhistory, by simp [hnumber], by simp, ?_⟩
        rwa [hhistory, List.length_append, hlength, List.length_singleton, Nat.sub_add_cancel hone]
    | some k' =>
      have hrun' := state_of_currentStep? hnext
      obtain ⟨hnumber, record, progress, next, rfl⟩ := pending_of_feed_running hrun hrun'
      obtain ⟨hstep', hpending', hknown'⟩ := hrecorded.of_pending
      obtain ⟨initial, last, hhistory, hnumbers, hpending, hclose⟩ :=
        ih (sound_feed hm _) hrun' hknown'
      refine ⟨record :: initial, last, ?_, ?_, List.forall_mem_cons.mpr ⟨hpending', hpending⟩,
        limits_feed m _ ▸ hclose⟩
      · rw [hhistory, history_feed hrun]
        simp [Result.record?]
      · rw [hnumber] at hnumbers
        rw [List.cons_append, List.map_cons, hnumbers, hstep']
        rfl

theorem Trail.of_unknown (h : Trail setting m task s visits m' u) (hrun : m.state = .running n)
    (hunknown : setting.module? task.agent = none) :
    m'.history = m.history ∧ m'.state = .aborted (.unknownAgent n task.agent) := by
  cases h with
  | ended _ _ hcurrent => simp [Machine.currentStep?, hrun] at hcurrent
  | step hn hstep rest =>
    cases hn.symm.trans (show m.currentStep? = some n by simp [Machine.currentStep?, hrun])
    obtain ⟨-, rfl, -⟩ | ⟨module, _, _, _, _, _, hmodule, -⟩ := step_cases hstep
    · have hfeed : Result.feed m (.abort none (.unknownAgent n task.agent)) =
          { m with state := .aborted (.unknownAgent n task.agent) } := by
        simp [Result.feed, Machine.abort, hrun, State.isTerminal]
      rw [hfeed] at rest
      cases rest with
      | ended => exact ⟨rfl, rfl⟩
      | step hn' => cases hn'
    · simp [hunknown] at hmodule

end Engine

end AgentChain
