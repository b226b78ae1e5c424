import AgentChain.Workflow.Machine
import Mathlib.Tactic.Common

/-!
# What a machine keeps under any calls

A machine can be called in any order: results can be fed before it is started or after it has ended,
and a run can be aborted before it begins. Whatever the order, the number of the running step counts
the history, the history stays within the bound of steps, and the counter of stagnating steps stays
below its threshold while the machine runs. So no counter wraps around, and a machine that has ended
does not change any more.
-/

namespace AgentChain.Workflow

/-- A call of a machine. -/
inductive Move where
  | start
  | complete (record : Record) (result : Json.Value)
  | pending (record : Record) (value : Float)
  | abort (record : Option Record) (reason : AbortReason)

namespace Machine

variable {m : Machine}

/-- The machine after a call; a machine that refuses to start stays as it is. -/
def after (m : Machine) : Move → Machine
  | .start => m.start.toOption.getD m
  | .complete record result => m.complete record result
  | .pending record value => m.pending record value
  | .abort record reason => m.abort record reason

def afterAll (m : Machine) (moves : List Move) : Machine :=
  moves.foldl after m

/-! ### What one call does -/

/-- What a call does to a machine: it refuses the call, or starts, or takes in a result of the
running step, or gives up a run that has not ended. -/
inductive Takes (m : Machine) : Move → Machine → Prop
  | refused (move : Move) : m.Takes move m
  | started (h : m.state = .idle) : m.Takes .start { m with state := .running 1 }
  | completed {n : UInt32} (h : m.state = .running n) (record : Record) (result : Json.Value) :
    m.Takes (.complete record result)
      { m with state := .complete result, history := m.history ++ [record] }
  | observed {n : UInt32} (h : m.state = .running n) (record : Record) (value : Float) :
    m.Takes (.pending record value)
      { m with
        state := stateAfter m.limits n (m.progress.observe value)
        progress := m.progress.observe value
        history := m.history ++ [record] }
  | aborted (h : m.state.isTerminal = false) (record : Option Record) (reason : AbortReason) :
    m.Takes (.abort record reason)
      { m with state := .aborted reason, history := m.history ++ record.toList }

theorem takes_after (m : Machine) (move : Move) : m.Takes move (m.after move) := by
  cases move with
  | start =>
    cases h : m.state with
    | idle => simpa [after, start, h, Except.toOption] using Takes.started h
    | running | complete | aborted => simpa [after, start, h, Except.toOption] using .refused _
  | complete record result =>
    cases h : m.state with
    | running n => simpa [after, complete, h] using .completed h record result
    | idle | complete | aborted => simpa [after, complete, h] using .refused _
  | pending record value =>
    cases h : m.state with
    | running n => simpa [after, pending, h] using .observed h record value
    | idle | complete | aborted => simpa [after, pending, h] using .refused _
  | abort record reason =>
    cases h : m.state.isTerminal with
    | true => simpa [after, abort, h] using .refused _
    | false => simpa [after, abort, h] using .aborted h record reason

/-- Where a run stands after a pending step: it has stopped, or it runs the next step because the
progress does not stagnate and the bound of steps is not reached. -/
theorem stateAfter_cases (limits : Limits) (n : UInt32) (progress : Progress) :
    (stateAfter limits n progress).isTerminal ∨
    (stateAfter limits n progress = .running (n + 1) ∧ n < limits.maxSteps ∧
      progress.stagnantSteps < progress.threshold) := by
  unfold stateAfter
  split_ifs with hstagnant hceiling
  · exact .inl rfl
  · exact .inl rfl
  · refine .inr ⟨rfl, UInt32.not_le.mp hceiling, ?_⟩
    simpa [Progress.isStagnant] using hstagnant

/-! ### The invariant -/

/-- What holds of a machine whatever calls were made. -/
structure Sound (m : Machine) : Prop where
  threshold_eq : m.progress.threshold = m.limits.stagnationThreshold
  /-- Before its run a machine has seen nothing. -/
  idle : m.state = .idle → m.history = [] ∧ m.progress = .start m.limits.stagnationThreshold
  /-- The running step comes next after those of the history and is within the bound; the counter
  of stagnating steps is below its threshold once there is a number to compare with. -/
  running : ∀ n, m.state = .running n → 1 ≤ n.toNat ∧ n.toNat ≤ m.limits.stepBound ∧
    m.history.length = n.toNat - 1 ∧
    (m.progress.last = none ∨ m.progress.stagnantSteps < m.limits.stagnationThreshold)
  length_le : m.history.length ≤ m.limits.stepBound

theorem sound_new (limits : Limits) : (new limits).Sound where
  threshold_eq := rfl
  idle _ := ⟨rfl, rfl⟩
  running n hn := by cases hn
  length_le := Nat.zero_le _

theorem Sound.ended (h : m.Sound) (hm : m.state.isTerminal = false) {m' : Machine}
    (hlimits : m'.limits = m.limits) (hend : m'.state.isTerminal)
    (hthreshold : m'.progress.threshold = m.progress.threshold)
    (hhistory : m'.history.length ≤ m.history.length + 1) : m'.Sound where
  threshold_eq := by rw [hthreshold, hlimits, h.threshold_eq]
  idle hidle := by simp [hidle, State.isTerminal] at hend
  running n hn := by simp [hn, State.isTerminal] at hend
  length_le := by
    rw [hlimits]
    have hone : 1 ≤ m.limits.stepBound := Nat.le_max_left 1 _
    cases hstate : m.state with
    | idle =>
      rw [(h.idle hstate).1] at hhistory
      exact Nat.le_trans hhistory hone
    | running n =>
      obtain ⟨hn, hbound, hlen, -⟩ := h.running n hstate
      omega
    | complete | aborted => simp [hstate, State.isTerminal] at hm

theorem Takes.sound (hm : m.Takes move m') (h : m.Sound) : m'.Sound := by
  cases hm with
  | refused => exact h
  | started hidle =>
    obtain ⟨hhistory, hprogress⟩ := h.idle hidle
    refine ⟨h.threshold_eq, nofun, ?_, h.length_le⟩
    rintro n ⟨⟩
    exact ⟨Nat.le_refl 1, Nat.le_max_left 1 _, by simp [hhistory], .inl (by simp [hprogress,
      Progress.start])⟩
  | completed hrun => exact h.ended (by simp [hrun, State.isTerminal]) rfl rfl rfl (by simp)
  | @observed n hrun record value =>
    obtain ⟨hn, hbound, hlen, -⟩ := h.running n hrun
    have hthreshold := Progress.threshold_observe m.progress value
    obtain hend | ⟨hnext, hroom, hmoving⟩ := stateAfter_cases m.limits n (m.progress.observe value)
    · exact h.ended (by simp [hrun, State.isTerminal]) rfl hend hthreshold (by simp)
    · rw [UInt32.lt_iff_toNat_lt] at hroom
      have hmax := m.limits.maxSteps.toNat_lt
      have hsucc : (n + 1).toNat = n.toNat + 1 := by
        rw [UInt32.toNat_add, Nat.mod_eq_of_lt (by simp; omega)]
        rfl
      have hwithin : n.toNat + 1 ≤ m.limits.stepBound := Nat.le_trans hroom (Nat.le_max_right 1 _)
      refine ⟨hthreshold.trans h.threshold_eq, ?_, ?_, ?_⟩
      · simp [hnext]
      · intro k hk
        obtain rfl : n + 1 = k := by simpa [hnext] using hk
        refine ⟨by omega, by simpa [hsucc] using hwithin, by simp [hlen]; omega, .inr ?_⟩
        rw [hthreshold, h.threshold_eq] at hmoving
        exact hmoving
      · simp only [List.length_append, List.length_singleton]
        omega
  | aborted hopen record =>
    refine h.ended hopen rfl rfl rfl ?_
    cases record <;> simp

theorem sound_after (h : m.Sound) (move : Move) : (m.after move).Sound :=
  (takes_after m move).sound h

theorem sound_started (limits : Limits) : (started limits).Sound :=
  sound_after (sound_new limits) .start

theorem sound_afterAll (h : m.Sound) (moves : List Move) : (m.afterAll moves).Sound := by
  induction moves generalizing m with
  | nil => exact h
  | cons move moves ih => exact ih (sound_after h move)

theorem limits_after (m : Machine) (move : Move) : (m.after move).limits = m.limits := by
  have h := takes_after m move
  generalize m.after move = m' at h
  cases h <;> rfl

theorem limits_afterAll (m : Machine) (moves : List Move) :
    (m.afterAll moves).limits = m.limits := by
  induction moves generalizing m with
  | nil => rfl
  | cons move moves ih => exact (ih (m.after move)).trans (limits_after m move)

/-! ### Histories, ends and starts -/

theorem history_after (m : Machine) (move : Move) :
    ∃ records, (m.after move).history = m.history ++ records := by
  have h := takes_after m move
  generalize m.after move = m' at h
  cases h with
  | refused | started => exact ⟨[], by simp⟩
  | completed | observed | aborted => exact ⟨_, rfl⟩

theorem after_of_isTerminal (h : m.state.isTerminal) (move : Move) : m.after move = m := by
  have hm := takes_after m move
  generalize m.after move = m' at hm
  cases hm with
  | refused => rfl
  | started hopen | completed hopen | observed hopen => simp [hopen, State.isTerminal] at h
  | aborted hopen => simp [hopen] at h

theorem afterAll_of_isTerminal (h : m.state.isTerminal) (moves : List Move) :
    m.afterAll moves = m := by
  induction moves with
  | nil => rfl
  | cons move moves ih => rwa [afterAll, List.foldl_cons, after_of_isTerminal h]

theorem start_of_isTerminal (h : m.state.isTerminal) : m.start = .error m.state := by
  cases hm : m.state with
  | idle | running => simp [hm, State.isTerminal] at h
  | complete | aborted => simp [start, hm]

/-- How many of the calls of `start` among some calls succeed. -/
def starts (m : Machine) : List Move → Nat
  | [] => 0
  | .start :: moves => (m.start.toOption.elim 0 fun _ => 1) + (m.after .start).starts moves
  | move :: moves => (m.after move).starts moves

theorem state_after_ne_idle (h : m.state ≠ .idle) (move : Move) : (m.after move).state ≠ .idle := by
  have hm := takes_after m move
  generalize m.after move = m' at hm
  cases hm with
  | refused => exact h
  | started | completed | aborted => nofun
  | @observed n _ _ value =>
    change stateAfter m.limits n (m.progress.observe value) ≠ .idle
    obtain hend | ⟨hnext, -, -⟩ := stateAfter_cases m.limits n (m.progress.observe value)
    · intro hidle
      simp [hidle, State.isTerminal] at hend
    · simp [hnext]

theorem starts_eq_zero (h : m.state ≠ .idle) (moves : List Move) : m.starts moves = 0 := by
  induction moves generalizing m with
  | nil => rfl
  | cons move moves ih =>
    have hrest := ih (state_after_ne_idle h move)
    cases move with
    | start =>
      have hrefused : m.start = .error m.state := by
        cases hm : m.state with
        | idle => exact absurd hm h
        | running | complete | aborted => simp [start, hm]
      simpa [starts, hrefused, Except.toOption] using hrest
    | complete | pending | abort => exact hrest

theorem starts_le_one (m : Machine) (moves : List Move) : m.starts moves ≤ 1 := by
  induction moves generalizing m with
  | nil => exact Nat.zero_le 1
  | cons move moves ih =>
    cases move with
    | start =>
      by_cases h : m.state = .idle
      · have hrunning : (m.after .start).state ≠ .idle := by
          simp [after, start, h, Except.toOption]
        simp [starts, starts_eq_zero hrunning, start, h, Except.toOption]
      · simp [starts_eq_zero h]
    | complete | pending | abort => exact ih _

/-! ### Counters -/

theorem toNat_step_pending (hrun : m.state = .running n) (record : Record)
    (value : Float) (hnext : (m.after (.pending record value)).state = .running k) :
    k.toNat = n.toNat + 1 := by
  simp only [after, pending, hrun] at hnext
  obtain hend | ⟨hstate, hroom, -⟩ := stateAfter_cases m.limits n (m.progress.observe value)
  · simp [hnext, State.isTerminal] at hend
  · obtain rfl : n + 1 = k := by simpa [hnext] using hstate.symm
    rw [UInt32.lt_iff_toNat_lt] at hroom
    have hmax := m.limits.maxSteps.toNat_lt
    rw [UInt32.toNat_add, Nat.mod_eq_of_lt (by simp; omega)]
    rfl

/-- A number that does not exceed the one before it raises the counter of a running machine by one.
-/
theorem Sound.toNat_stagnantSteps_observe (h : m.Sound) (hrun : m.state = .running n)
    (hlast : m.progress.last = some previous) (hvalue : ¬value > previous) :
    (m.progress.observe value).stagnantSteps.toNat = m.progress.stagnantSteps.toNat + 1 := by
  obtain ⟨-, -, -, hnone | hbelow⟩ := h.running n hrun
  · simp [hnone] at hlast
  · rw [UInt32.lt_iff_toNat_lt] at hbelow
    have hmax := m.limits.stagnationThreshold.toNat_lt
    simp only [Progress.observe, hlast, if_neg hvalue]
    rw [UInt32.toNat_add, Nat.mod_eq_of_lt (by simp; omega)]
    rfl

/-- What holds of a new machine after any calls in any order. The invariant holds; a further call
only adds to the history; a machine that has ended stays as it is under all later calls and refuses
to start; at most one call of `start` has succeeded; and neither the number of the step nor the
counter of stagnating steps wraps around where a pending step raises it. -/
theorem calls_keep_machine_sound (limits : Limits) (moves : List Move) :
    ((new limits).afterAll moves).limits = limits ∧
    ((new limits).afterAll moves).Sound ∧
    (∀ move, ∃ records, (((new limits).afterAll moves).after move).history =
      ((new limits).afterAll moves).history ++ records) ∧
    (((new limits).afterAll moves).state.isTerminal = true →
      (∀ later, ((new limits).afterAll moves).afterAll later = (new limits).afterAll moves) ∧
      ((new limits).afterAll moves).start = .error ((new limits).afterAll moves).state) ∧
    (new limits).starts moves ≤ 1 ∧
    (∀ n k record value, ((new limits).afterAll moves).state = .running n →
      (((new limits).afterAll moves).after (.pending record value)).state = .running k →
      k.toNat = n.toNat + 1) ∧
    ∀ n previous value, ((new limits).afterAll moves).state = .running n →
      ((new limits).afterAll moves).progress.last = some previous → ¬value > previous →
      (((new limits).afterAll moves).progress.observe value).stagnantSteps.toNat =
        ((new limits).afterAll moves).progress.stagnantSteps.toNat + 1 := by
  have hsound := sound_afterAll (sound_new limits) moves
  refine ⟨limits_afterAll _ moves, hsound, history_after _, fun h => ?_, starts_le_one _ moves,
    fun n k record value hrun => toNat_step_pending hrun record value,
    fun n previous value hrun => hsound.toNat_stagnantSteps_observe hrun⟩
  exact ⟨afterAll_of_isTerminal h, start_of_isTerminal h⟩

end Machine

end AgentChain.Workflow
