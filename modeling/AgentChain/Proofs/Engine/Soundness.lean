import AgentChain.Proofs.Engine.Trail
import AgentChain.Proofs.Tape
import AgentChain.Sandbox.Scripted

/-!
# Soundness of a completed run

A workflow completes only through answers that carry the trace ids of their questions. The sandbox
is arbitrary: an agent may write nothing, write anything, or leave the answer to another question.
Still every step of a completed run left a document with the id that was drawn for it, all of these
documents were pending but the last, each named the task of the next step, and the result of the run
is the one in the last document. A document with any other id ends the run then and there.
-/

namespace AgentChain.Engine

open Workflow (AbortReason Machine Record Status State)
open OutputTape AgentChain.Action

variable {S : Type} {setting : Setting S}

/-! ### Answered steps -/

section Answered

variable {n : UInt32} {task : Task} {s after : Session S} {x : Exchange S} {result : Result}

theorem Answered.step_eq (hx : Answered setting n task s x)
    (h : (step setting n task).result s = (.ok result, after)) :
    ∃ elapsedMs, result = (judge setting n task.agent x.traceId
      (recordOf n task.agent x.traceId elapsedMs) x.output).1 := by
  obtain ⟨module, elapsedMs, hmodule, hcall⟩ := hx.finished
  obtain ⟨result', after', hafter, hfollowed⟩ :=
    exists_followed setting n task.agent x.traceId .finished elapsedMs x.returned
  rw [step, hmodule] at h
  dsimp only at h
  have hhanded := (handOver_eq_ok_iff (n := n)).mpr ⟨hx.fresh, _, _, hx.written, hx.cleared, rfl⟩
  rw [result_bind_of_ok hhanded, result_bind_of_ok hcall, hafter] at h
  cases h
  have hread := hx.read
  cases hfollowed with
  | unreadable hunread => simp [hunread] at hread
  | judged hjudged =>
    rw [hjudged] at hread
    cases hread
    exact ⟨elapsedMs, rfl⟩

theorem answered_of_step (h : (step setting n task).result s = (.ok result, after))
    (hresult : ∀ record reason, result ≠ .abort record reason) :
    ∃ x elapsedMs, Answered setting n task s x ∧
      result = (judge setting n task.agent x.traceId (recordOf n task.agent x.traceId elapsedMs)
        x.output).1 := by
  obtain ⟨-, rfl, -⟩ | ⟨module, traceId, called, ending, elapsedMs, returned, hmodule, hhanded,
    hcall, hfollowed⟩ := step_cases h
  · exact absurd rfl (hresult _ _)
  · obtain ⟨hfresh, written, cleared, hwritten, hcleared, rfl⟩ := handOver_eq_ok_iff.mp hhanded
    cases hfollowed with
    | failed | timedOut | unreadable => exact absurd rfl (hresult _ _)
    | judged hread =>
      refine ⟨⟨traceId, written, cleared, returned, _⟩, elapsedMs, ?_, rfl⟩
      exact ⟨hfresh, hwritten, hcleared, ⟨module, elapsedMs, hmodule, hcall⟩, by rw [hread]⟩

theorem answered_of_pending
    (h : (step setting n task).result s = (.ok (.pending record progress next), after)) :
    ∃ x, Answered setting n task s x ∧ traceId? x.output = some x.traceId ∧
      interpret x.output = .ok (.pending progress next) := by
  obtain ⟨x, elapsedMs, hx, hjudge⟩ := answered_of_step h nofun
  exact ⟨x, hx, judge_eq_pending hjudge.symm⟩

theorem answered_of_complete
    (h : (step setting n task).result s = (.ok (.complete record value), after)) :
    ∃ x progress, Answered setting n task s x ∧
      traceId? x.output = some x.traceId ∧
      interpret x.output = .ok (.complete value progress) := by
  obtain ⟨x, elapsedMs, hx, hjudge⟩ := answered_of_step h nofun
  obtain ⟨hid, progress, hanswer⟩ := judge_eq_complete hjudge.symm
  exact ⟨x, progress, hx, hid, hanswer⟩

end Answered

/-! ### Completed runs -/

theorem complete_of_feed {m : Machine} (hrun : m.state = .running n) {result : Result}
    (h : (result.feed m).state = .complete value) :
    ∃ record, result = .complete record value := by
  cases result with
  | complete record result =>
    simp only [Result.feed, Machine.complete, hrun, State.complete.injEq] at h
    exact ⟨record, by rw [h]⟩
  | pending record progress next =>
    simp only [Result.feed, Machine.pending, hrun, Machine.stateAfter] at h
    split_ifs at h
  | abort record reason => simp [Result.feed, Machine.abort, hrun, State.isTerminal] at h

/-- What the documents on the output tapes are to a run with the given visits. -/
structure Backed (setting : Setting S) (visits : List (Visit S)) (r : Run) : Prop where
  numbered : ∀ k (hk : k < visits.length), visits[k].number.toNat = k + 1
  /-- A visit that is not the last left a pending document with the id that was drawn for it, and
  the document names the task of the next visit. -/
  pending : ∀ k (hk : k < visits.length) (hnext : k + 1 < visits.length), ∃ x progress,
    Answered setting visits[k].number visits[k].task visits[k].before x ∧
    traceId? x.output = some x.traceId ∧
    interpret x.output = .ok (.pending progress visits[k + 1].task)
  /-- If the run is complete, there is one visit for each record, and the last visit left a
  completing document with the id that was drawn for it, and with the result of the run. -/
  complete : ∀ result, r.state = .complete result →
    visits.length = r.history.length ∧ ∃ v x progress, visits.getLast? = some v ∧
      Answered setting v.number v.task v.before x ∧
      traceId? x.output = some x.traceId ∧
      interpret x.output = .ok (.complete result progress) ∧
      x.output.member? "result" = some result
  /-- A document with another id, or without one, is the last and ends the run without a result. -/
  foreign : ∀ k (hk : k < visits.length) (x : Exchange S),
    Answered setting visits[k].number visits[k].task visits[k].before x →
    traceId? x.output ≠ some x.traceId →
    k + 1 = visits.length ∧
      r.state = .aborted (.traceMismatch visits[k].number x.traceId (traceId? x.output))

namespace Trail

variable {m m' : Machine} {task : Task} {s u : Session S} {visits : List (Visit S)}

section

variable (h : Trail setting m task s visits m' u)
include h

theorem exists_answered_of_lt (hk : k < visits.length) (hnext : k + 1 < visits.length) :
    ∃ x progress, Answered setting visits[k].number visits[k].task visits[k].before x ∧
      traceId? x.output = some x.traceId ∧
      interpret x.output = .ok (.pending progress visits[k + 1].task) := by
  obtain ⟨-, record, progress, hpending⟩ := h.pending_of_lt hk hnext
  have hstep := h.step_of_mem (List.getElem_mem hk)
  rw [hpending] at hstep
  obtain ⟨x, hx, hid, hanswer⟩ := answered_of_pending hstep
  exact ⟨x, progress, hx, hid, hanswer⟩

theorem length_history_of_last (hvisits : visits ≠ [])
    (hlast : (visits.getLast hvisits).result.record?.isSome) :
    m'.history.length = m.history.length + visits.length := by
  have hall : ∀ v ∈ visits, v.result.record?.isSome := by
    intro v hv
    obtain ⟨k, hk, rfl⟩ := List.getElem_of_mem hv
    by_cases hnext : k + 1 < visits.length
    · obtain ⟨-, record, progress, hpending⟩ := h.pending_of_lt hk hnext
      rw [hpending]
      rfl
    · rw [List.getLast_eq_getElem] at hlast
      obtain rfl : k = visits.length - 1 := by omega
      exact hlast
  rw [h.history_eq, List.length_append, List.length_filterMap_eq_countP]
  rw [List.countP_eq_length.mpr (by simpa using hall)]

theorem exists_answered_of_complete (hm : m.Sound)
    (hvisits : visits ≠ []) {result : Json.Value} (hcomplete : m'.state = .complete result) :
    m'.history.length = m.history.length + visits.length ∧
      ∃ v x progress, visits.getLast? = some v ∧
        Answered setting v.number v.task v.before x ∧
        traceId? x.output = some x.traceId ∧
        interpret x.output = .ok (.complete result progress) := by
  obtain ⟨last, -, -, hrun, rfl⟩ := h.exists_last hm hvisits
  obtain ⟨record, hresult⟩ := complete_of_feed hrun hcomplete
  have hstep := h.step_of_mem (List.getLast_mem hvisits)
  rw [hresult] at hstep
  obtain ⟨x, progress, hx, hid, hanswer⟩ := answered_of_complete hstep
  refine ⟨h.length_history_of_last hvisits (by rw [hresult]; rfl), _, x, progress,
    List.getLast?_eq_some_getLast hvisits, hx, hid, hanswer⟩

theorem aborted_of_foreign (hm : m.Sound) (hk : k < visits.length)
    (hx : Answered setting visits[k].number visits[k].task visits[k].before x)
    (hforeign : traceId? x.output ≠ some x.traceId) :
    k + 1 = visits.length ∧ m'.state =
      .aborted (.traceMismatch visits[k].number x.traceId (traceId? x.output)) := by
  obtain ⟨elapsedMs, hresult⟩ := hx.step_eq (h.step_of_mem (List.getElem_mem hk))
  rw [judge, checkTrace, if_neg hforeign] at hresult
  exact h.aborted_of_abort hm hk hresult

end

end Trail

/-- The tapes behind a run, whatever the sandbox does: the run is the trail of its visits, and the
documents on the output tapes of the visits back it. -/
theorem completed_run_sound (setting : Setting S) (rootAgent : String) (input config : Json.Value)
    (s s' : Session S) (r : Run)
    (hrun : (run setting rootAgent input config).result s = (.ok r, s')) :
    ∃ visits m t, r = { state := m.state, history := m.history } ∧
      Trail setting (.started setting.limits) { agent := rootAgent, input, config }
        (s.reporting (startEvent setting rootAgent)) visits m t ∧
      Backed setting visits r := by
  obtain ⟨visits, m, t, rfl, htrail, -⟩ := run_trail hrun
  refine ⟨visits, m, t, rfl, htrail, ?_, fun k hk hnext => htrail.exists_answered_of_lt hk hnext, ?_, ?_⟩
  · intro k hk
    rw [htrail.toNat_number rfl hk]
    exact Nat.add_comm 1 k
  · intro result hcomplete
    have hvisits : visits ≠ [] := by
      rintro rfl
      cases htrail
      cases hcomplete
    obtain ⟨hlength, v, x, progress, hlast, hx, hid, hanswer⟩ :=
      htrail.exists_answered_of_complete (Machine.sound_started _) hvisits hcomplete
    have hresult := (interpret_eq_complete_iff.mp hanswer).2.2.1
    refine ⟨?_, v, x, progress, hlast, hx, hid, hanswer, hresult⟩
    rw [hlength]
    exact (Nat.zero_add _).symm
  · exact fun k hk x hx => htrail.aborted_of_foreign (Machine.sound_started _) hk hx

def relay : Setting Sandbox.Scripted where
  box := .scripted
  table := [("planner", "plan"), ("worker", "work")]
  limits := {}
  timeoutMs := none

/-- The first agent hands over to the second, which completes the work. -/
def relaySession : Session Sandbox.Scripted where
  world := {
    disk := .empty, reported := [], logs := [], clock := ⟨0⟩
    supply := fun k => String.ofList (List.replicate k 'x'), drawn := 1 }
  state := { replies := [
    .echo (.object [
      ("action", .object [
        ("payload", .object [("agent_name", .string "worker"), ("input_data", .null)]),
        ("type", .string "run_agent")]),
      ("progress", .ofCount 1), ("status", .string "pending")]),
    .complete (.ofCount 7)] }

theorem relay_ends : ((run relay "planner" .null .null).result relaySession).1.toOption.map
    (fun r => (r.status, r.history.length)) = some ("complete", 2) := by
  decide +kernel

theorem relay_run_sound : ∃ r s',
    (run relay "planner" .null .null).result relaySession = (.ok r, s') ∧
    r.status = "complete" ∧ r.history.length = 2 ∧
    ∃ visits m t, r = { state := m.state, history := m.history } ∧
      Trail relay (.started {}) { agent := "planner", input := .null, config := .null }
        (relaySession.reporting (startEvent relay "planner")) visits m t ∧
      Backed relay visits r := by
  obtain ⟨r, s', hrun, hends⟩ := exists_of_map_toOption relay_ends
  exact ⟨r, s', hrun, congrArg Prod.fst hends, congrArg Prod.snd hends,
    completed_run_sound relay "planner" .null .null relaySession s' r hrun⟩

end AgentChain.Engine
