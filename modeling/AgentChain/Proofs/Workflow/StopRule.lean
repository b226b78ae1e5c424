import AgentChain.Workflow.Machine
import Mathlib.Data.List.Induction
import Mathlib.Data.Nat.Find
import Mathlib.Order.Bounds.Defs
import Mathlib.Tactic.Common

/-!
# The stop rule of a run of pending steps

A machine that is fed with pending steps only goes on until one of its two bounds stops it. The
numbers of the steps decide which: the run stagnates at the first step whose number, like those of
the steps right before it, does not exceed the number before, as many times in a row as the
threshold says. The comparison is the one of floats, so a number that is not comparable exceeds
nothing and is exceeded by nothing.

The counter of `Progress` is characterized by that condition on the observed sequence, as long as
the sequence is short enough for the counter not to wrap around. The machine is then followed up to
the step at which a bound is met, and it does not move afterwards.
-/

namespace AgentChain

namespace Progress

/-! ### Stagnation of a sequence -/

/-- Whether the number at position `i + 1` exceeds the number at position `i`. -/
def exceeds (values : List Float) (i : Nat) : Bool :=
  match values[i]?, values[i + 1]? with
  | some previous, some value => value > previous
  | _, _ => false

/-- Each of the last `threshold` numbers among the first `n` does not exceed the number before it,
and there are that many such pairs. -/
def StagnantAt (threshold : Nat) (values : List Float) (n : Nat) : Prop :=
  threshold < n ∧ ∀ i < n - 1, n ≤ i + 1 + threshold → exceeds values i = false

instance (threshold : Nat) (values : List Float) : DecidablePred (StagnantAt threshold values) :=
  fun _ => inferInstanceAs (Decidable (_ ∧ _))

theorem exists_stagnantAt (threshold : Nat) (values : List Float) :
    ∃ n, StagnantAt threshold values n := by
  refine ⟨values.length + threshold + 1, by omega, fun i _ hi => ?_⟩
  have hnone : values[i + 1]? = none := List.getElem?_eq_none (by omega)
  simp [exceeds, hnone]

/-- The least step of stagnation. It lies beyond the end of the sequence when the sequence does not
stagnate. -/
def stagnationStep (threshold : Nat) (values : List Float) : Nat :=
  Nat.find (exists_stagnantAt threshold values)

theorem stagnationStep_pos (threshold : Nat) (values : List Float) :
    0 < stagnationStep threshold values :=
  Nat.zero_lt_of_lt (Nat.find_spec (exists_stagnantAt threshold values)).1

variable {values : List Float}

theorem exceeds_append (more : List Float)
    (hi : i + 1 < values.length) : exceeds (values ++ more) i = exceeds values i := by
  simp only [exceeds, List.getElem?_append_left hi,
    List.getElem?_append_left (show i < values.length by omega)]

theorem stagnantAt_append {threshold n} (more : List Float) (hn : n ≤ values.length) :
    StagnantAt threshold (values ++ more) n ↔ StagnantAt threshold values n := by
  refine and_congr_right fun _ => forall₂_congr fun i hi => ?_
  rw [exceeds_append more (by omega)]

/-! ### The counter of an observed sequence -/

def observed (threshold : UInt32) (values : List Float) : Progress :=
  values.foldl observe (start threshold)

theorem observed_concat (threshold : UInt32) (values : List Float) (value : Float) :
    observed threshold (values ++ [value]) = (observed threshold values).observe value := by
  simp [observed]

theorem threshold_observed (threshold : UInt32) (values : List Float) :
    (observed threshold values).threshold = threshold := by
  induction values using List.reverseRecOn with
  | nil => rfl
  | append_singleton values value ih => rw [observed_concat, threshold_observe, ih]

theorem last_observed (threshold : UInt32) (values : List Float) :
    (observed threshold values).last = values.getLast? := by
  induction values using List.reverseRecOn with
  | nil => rfl
  | append_singleton values value _ => rw [observed_concat, last_observe, List.getLast?_concat]

theorem stagnantAt_zero : StagnantAt 0 values n ↔ 0 < n := by
  refine and_iff_left fun i hi hn => ?_
  omega

theorem stagnantAt_concat (hlast : values.getLast? = some previous) :
    StagnantAt (s + 1) (values ++ [value]) (values.length + 1) ↔
      ¬value > previous ∧ StagnantAt s values values.length := by
  have hpos : 0 < values.length := by
    rw [List.length_pos_iff]
    rintro rfl
    simp at hlast
  have hend : exceeds (values ++ [value]) (values.length - 1) = decide (value > previous) := by
    rw [List.getLast?_eq_getElem?] at hlast
    simp only [exceeds, Nat.sub_add_cancel hpos, List.getElem?_concat_length,
      List.getElem?_append_left (Nat.sub_lt hpos Nat.one_pos), hlast]
  constructor
  · rintro ⟨hs, hall⟩
    refine ⟨?_, by omega, fun i hi hn => ?_⟩
    · simpa [hend] using hall (values.length - 1) (by omega) (by omega)
    · rw [← exceeds_append [value] (by omega)]
      exact hall i (by omega) (by omega)
  · rintro ⟨hvalue, hs, hall⟩
    refine ⟨by omega, fun i hi hn => ?_⟩
    -- the new pair is the last one; the others are pairs of the old sequence
    rcases Nat.lt_or_ge (i + 1) values.length with h | h
    · rw [exceeds_append [value] h]
      exact hall i (by omega) (by omega)
    · rw [show i = values.length - 1 by omega, hend]
      simpa using hvalue

/-- The counter is the length of the stagnation at the end of the sequence. A sequence of at most
`UInt32.size` numbers has fewer pairs than that, so the counter does not wrap around. -/
theorem le_stagnantSteps_iff (threshold : UInt32) (hne : values ≠ [])
    (hlen : values.length ≤ UInt32.size) (s : Nat) :
    s ≤ (observed threshold values).stagnantSteps.toNat ↔ StagnantAt s values values.length := by
  induction values using List.reverseRecOn generalizing s with
  | nil => exact absurd rfl hne
  | append_singleton values value ih =>
    rw [observed_concat, List.length_append, List.length_singleton]
    cases hlast : values.getLast? with
    | none =>
      obtain rfl : values = [] := List.getLast?_eq_none_iff.mp hlast
      have hzero : ((observed threshold []).observe value).stagnantSteps.toNat = 0 := rfl
      cases s with
      | zero => simp [stagnantAt_zero]
      | succ s => simp [hzero, StagnantAt]
    | some previous =>
      have hvalues : values ≠ [] := by
        rintro rfl
        simp at hlast
      rw [List.length_append, List.length_singleton] at hlen
      have hih := ih hvalues (by omega)
      have hobserve : ((observed threshold values).observe value).stagnantSteps =
          if value > previous then 0 else (observed threshold values).stagnantSteps + 1 := by
        simp only [observe, last_observed, hlast]
      cases s with
      | zero => simp [stagnantAt_zero]
      | succ s =>
        rw [stagnantAt_concat hlast, hobserve, ← hih]
        by_cases h : value > previous
        · simp [h]
        · have hbound := ((hih _).mp (Nat.le_refl _)).1
          rw [UInt32.size] at hlen
          rw [if_neg h, UInt32.toNat_add, Nat.mod_eq_of_lt (by simp; omega)]
          simp [h]

theorem isStagnant_observed_iff (threshold : UInt32) (hne : values ≠ [])
    (hlen : values.length ≤ UInt32.size) :
    (observed threshold values).isStagnant ↔ StagnantAt threshold.toNat values values.length := by
  rw [isStagnant, decide_eq_true_iff, threshold_observed, UInt32.le_iff_toNat_le,
    le_stagnantSteps_iff threshold hne hlen]

/-- The counter after any sequence, short enough for it not to wrap around, is the greatest number
of numbers at the end of the sequence of which none exceeds the one before it. The first number has
none before it and is never among them. The last number was reported as stagnant exactly if the
counter has reached the threshold. -/
theorem stagnantSteps_isGreatest (threshold : UInt32) (values : List Float)
    (hlen : values.length < UInt32.size) :
    IsGreatest {s | s = 0 ∨ StagnantAt s values values.length}
        (observed threshold values).stagnantSteps.toNat ∧
      ∀ before value, values = before ++ [value] →
        (((observed threshold before).observe value).isStagnant = true ↔
          threshold ≤ (observed threshold values).stagnantSteps) := by
  refine ⟨?_, ?_⟩
  · rcases eq_or_ne values [] with rfl | hne
    · refine ⟨.inl rfl, ?_⟩
      rintro s (rfl | hs)
      · exact Nat.zero_le _
      · exact absurd hs.1 (Nat.not_lt_zero s)
    · have hiff := le_stagnantSteps_iff threshold hne (Nat.le_of_lt hlen)
      refine ⟨.inr ((hiff _).1 (Nat.le_refl _)), ?_⟩
      rintro s (rfl | hs)
      · exact Nat.zero_le _
      · exact (hiff s).2 hs
  · rintro before value rfl
    rw [← observed_concat, isStagnant, decide_eq_true_iff, threshold_observed]

theorem stagnantSteps_isGreatest_mixed :
    IsGreatest {s | s = 0 ∨ StagnantAt s [1, 0 / 0, 3, 2, 4, 4] 6} 1 ∧
      ((observed 2 [1, 0 / 0, 3, 2, 4]).observe 4).isStagnant = false := by
  have h := stagnantSteps_isGreatest 2 [1, 0 / 0, 3, 2, 4, 4] (by decide)
  refine ⟨h.1, Bool.eq_false_iff.2 fun hs => ?_⟩
  exact absurd ((h.2 [1, 0 / 0, 3, 2, 4] 4 rfl).1 hs) (by decide +kernel)

example : (observed 2 [1, 0 / 0, 3, 2]).stagnantSteps = 3 := by decide +kernel

end Progress

namespace Workflow.Machine

open Progress

variable {limits : Limits} {steps : List (Record × Float)}

/-! ### A machine that is fed with pending steps -/

/-- A machine after pending steps, each with its record and its number. -/
def feed (m : Machine) (steps : List (Record × Float)) : Machine :=
  steps.foldl (fun m s => m.pending s.1 s.2) m

def fed (limits : Limits) (steps : List (Record × Float)) : Machine :=
  (started limits).feed steps

theorem feed_singleton (m : Machine) (s : Record × Float) : m.feed [s] = m.pending s.1 s.2 :=
  rfl

theorem fed_append (limits : Limits) (steps more : List (Record × Float)) :
    fed limits (steps ++ more) = (fed limits steps).feed more := by
  simp [fed, feed]

theorem feed_of_isTerminal {m : Machine} (h : m.state.isTerminal) (steps : List (Record × Float)) :
    m.feed steps = m := by
  induction steps with
  | nil => rfl
  | cons s steps ih =>
    have hstay : m.pending s.1 s.2 = m := by
      cases hm : m.state with
      | idle | running => simp [hm, State.isTerminal] at h
      | complete | aborted => simp [pending, hm]
    rw [feed, List.foldl_cons, hstay]
    exact ih

/-- The numbers of steps. -/
def numbers (steps : List (Record × Float)) : List Float :=
  steps.map (·.2)

@[simp] theorem length_numbers (steps : List (Record × Float)) :
    (numbers steps).length = steps.length := by
  simp [numbers]

theorem numbers_append (steps more : List (Record × Float)) :
    numbers (steps ++ more) = numbers steps ++ numbers more := by
  simp [numbers]

/-- The machine that has taken in all of some steps and stands where `state` says. -/
def holding (limits : Limits) (steps : List (Record × Float)) (state : State) : Machine :=
  { limits
    state
    progress := observed limits.stagnationThreshold (numbers steps)
    history := steps.map (·.1) }

theorem pending_holding (steps : List (Record × Float)) (n : UInt32) (s : Record × Float) :
    (holding limits steps (.running n)).pending s.1 s.2 =
      holding limits (steps ++ [s]) (stateAfter limits n
        (observed limits.stagnationThreshold (numbers (steps ++ [s])))) := by
  simp [holding, pending, numbers, observed_concat]

theorem toNat_stepNumber (limits : Limits) (h : n < limits.stepBound) :
    (UInt32.ofNat (n + 1)).toNat = n + 1 := by
  have hmax := limits.maxSteps.toNat_lt
  refine UInt32.toNat_ofNat_of_lt' ?_
  simp only [Limits.stepBound, UInt32.size] at h ⊢
  omega

theorem isStagnant_numbers_iff (hne : steps ≠ []) (hlen : steps.length ≤ limits.stepBound) :
    (observed limits.stagnationThreshold (numbers steps)).isStagnant ↔
      StagnantAt limits.stagnationThreshold.toNat (numbers steps) steps.length := by
  have hmax := limits.maxSteps.toNat_lt
  have hbound : (numbers steps).length ≤ UInt32.size := by
    rw [length_numbers]
    simp only [Limits.stepBound, UInt32.size] at hlen ⊢
    omega
  rw [isStagnant_observed_iff _ (by simpa [numbers] using hne) hbound, length_numbers]

theorem fed_of_unstopped (limits : Limits) (steps : List (Record × Float))
    (hlen : steps.length < limits.stepBound) (hmoves : ∀ n ≤ steps.length,
      ¬StagnantAt limits.stagnationThreshold.toNat (numbers steps) n) :
    fed limits steps = holding limits steps (.running (UInt32.ofNat (steps.length + 1))) := by
  induction steps using List.reverseRecOn with
  | nil => rfl
  | append_singleton steps s ih =>
    have hcount : (steps ++ [s]).length = steps.length + 1 := by simp
    have hprefix := ih (by omega) fun n hn hstagnant => hmoves n (by omega) (by
      rw [numbers_append]
      exact (stagnantAt_append _ (by simpa using hn)).mpr hstagnant)
    have hmoving : ¬(observed limits.stagnationThreshold
        (numbers (steps ++ [s]))).isStagnant := by
      rw [isStagnant_numbers_iff (by simp) (by omega)]
      exact hmoves _ (Nat.le_refl _)
    have hroom : ¬limits.maxSteps ≤ UInt32.ofNat (steps.length + 1) := by
      rw [UInt32.le_iff_toNat_le, toNat_stepNumber limits (by omega)]
      simp only [Limits.stepBound] at hlen
      omega
    have hnext : UInt32.ofNat (steps.length + 1) + 1 =
        UInt32.ofNat ((steps ++ [s]).length + 1) := by
      rw [hcount, ← UInt32.ofNat_one, ← UInt32.ofNat_add]
    rw [fed_append, hprefix, feed_singleton, pending_holding, stateAfter, if_neg hmoving,
      if_neg hroom, hnext]

theorem stagnantAt_numbers_take (threshold : Nat) {n k} (hn : n ≤ steps.length) (hk : k ≤ n) :
    StagnantAt threshold (numbers (steps.take n)) k ↔ StagnantAt threshold (numbers steps) k := by
  conv_rhs => rw [← List.take_append_drop n steps, numbers_append]
  exact (stagnantAt_append _ (by simpa [hn] using hk)).symm

theorem fed_of_stopped (hn : n < steps.length) (hlen : n < limits.stepBound)
    (hmoves : ∀ k ≤ n, ¬StagnantAt limits.stagnationThreshold.toNat (numbers steps) k)
    {state : State} (hstate : stateAfter limits (UInt32.ofNat (n + 1))
      (observed limits.stagnationThreshold (numbers (steps.take (n + 1)))) = state)
    (hstop : state.isTerminal) :
    fed limits steps = holding limits (steps.take (n + 1)) state := by
  have hcount : (steps.take n).length = n := List.length_take_of_le (by omega)
  have hprefix := fed_of_unstopped limits (steps.take n) (by omega) fun k hk => by
    rw [stagnantAt_numbers_take _ (by omega) (by omega)]
    exact hmoves k (by omega)
  have htake : steps.take (n + 1) = steps.take n ++ [steps[n]] :=
    List.take_succ_eq_append_getElem hn
  have hsteps : steps = steps.take n ++ [steps[n]] ++ steps.drop (n + 1) := by
    rw [← htake, List.take_append_drop]
  rw [hcount] at hprefix
  conv_lhs => rw [hsteps]
  rw [fed_append, fed_append, hprefix, feed_singleton, pending_holding, ← htake, hstate]
  exact feed_of_isTerminal hstop _

theorem fed_of_stagnant (hn : n < steps.length) (hlen : n < limits.stepBound)
    (hmoves : ∀ k ≤ n, ¬StagnantAt limits.stagnationThreshold.toNat (numbers steps) k)
    (hstagnant : StagnantAt limits.stagnationThreshold.toNat (numbers steps) (n + 1)) :
    fed limits steps = holding limits (steps.take (n + 1))
      (.aborted (.stagnant (UInt32.ofNat (n + 1)) limits.stagnationThreshold)) := by
  refine fed_of_stopped hn hlen hmoves ?_ rfl
  have hcount : (steps.take (n + 1)).length = n + 1 := List.length_take_of_le (by omega)
  have hne : steps.take (n + 1) ≠ [] := List.ne_nil_of_length_eq_add_one hcount
  rw [stateAfter, if_pos]
  rw [isStagnant_numbers_iff hne (by omega), hcount, stagnantAt_numbers_take _ hn (Nat.le_refl _)]
  exact hstagnant

theorem fed_of_ceiling (hlen : limits.stepBound ≤ steps.length) (hmoves : ∀ k ≤ limits.stepBound,
      ¬StagnantAt limits.stagnationThreshold.toNat (numbers steps) k) :
    fed limits steps = holding limits (steps.take limits.stepBound)
      (.aborted (.stepLimitExceeded limits.maxSteps)) := by
  obtain ⟨n, hn⟩ : ∃ n, limits.stepBound = n + 1 := Nat.exists_eq_add_one.mpr (Nat.le_max_left 1 _)
  rw [hn] at hlen hmoves ⊢
  have hcount : (steps.take (n + 1)).length = n + 1 := List.length_take_of_le hlen
  have hne : steps.take (n + 1) ≠ [] := List.ne_nil_of_length_eq_add_one hcount
  refine fed_of_stopped hlen (by omega) (fun k hk => hmoves k (by omega)) ?_ rfl
  rw [stateAfter, if_neg, if_pos]
  · rw [UInt32.le_iff_toNat_le, toNat_stepNumber limits (by omega), ← hn]
    exact Nat.le_max_right 1 _
  · rw [isStagnant_numbers_iff hne (by omega), hcount,
      stagnantAt_numbers_take _ hlen (Nat.le_refl _)]
    exact hmoves _ (Nat.le_refl _)

/-- Where a started machine stands after any sequence of pending steps. It has stopped at the step
of stagnation if that comes no later than the last step it was fed with and the last step allowed;
else at the last step allowed, if it was fed with that many; else it runs the next step. It holds
the records of exactly the steps up to there. No step number up to the bound wraps around. -/
theorem fed_stops_exactly (limits : Limits) (steps : List (Record × Float)) :
    (new limits).start = .ok (started limits) ∧
    (fed limits steps =
      if stagnationStep limits.stagnationThreshold.toNat (numbers steps) ≤
          min steps.length limits.stepBound then
        holding limits
          (steps.take (stagnationStep limits.stagnationThreshold.toNat (numbers steps)))
          (.aborted (.stagnant
            (UInt32.ofNat (stagnationStep limits.stagnationThreshold.toNat (numbers steps)))
            limits.stagnationThreshold))
      else if limits.stepBound ≤ steps.length then
        holding limits (steps.take limits.stepBound) (.aborted (.stepLimitExceeded limits.maxSteps))
      else holding limits steps (.running (UInt32.ofNat (steps.length + 1)))) ∧
    ∀ n ≤ limits.stepBound, (UInt32.ofNat n).toNat = n := by
  have hspec := Nat.find_spec (exists_stagnantAt limits.stagnationThreshold.toNat (numbers steps))
  have hmoves (k : Nat) (hk : k < stagnationStep limits.stagnationThreshold.toNat (numbers steps)) :
      ¬StagnantAt limits.stagnationThreshold.toNat (numbers steps) k :=
    Nat.find_min (exists_stagnantAt limits.stagnationThreshold.toNat (numbers steps)) hk
  rw [← stagnationStep] at hspec
  obtain ⟨n, hn⟩ := Nat.exists_eq_add_one.mpr
    (stagnationStep_pos limits.stagnationThreshold.toNat (numbers steps))
  rw [hn] at hspec hmoves ⊢
  refine ⟨start_new limits, ?_, ?_⟩
  · split_ifs with hstagnant hceiling
    · exact fed_of_stagnant (by omega) (by omega) (fun k hk => hmoves k (by omega)) hspec
    · exact fed_of_ceiling hceiling fun k hk => hmoves k (by omega)
    · exact fed_of_unstopped limits steps (by omega) fun k hk => hmoves k (by omega)
  · rintro (_ | n) hn
    · rfl
    · exact toNat_stepNumber limits hn

end Workflow.Machine

end AgentChain
