import AgentChain.Proofs.Engine.Records
import AgentChain.Proofs.Engine.ScriptedStep
import AgentChain.Proofs.Engine.Soundness

/-!
# Runs in a scripted sandbox

A scripted sandbox can be scripted to answer anything: a document with or without the trace id, any
bytes, nothing at all, a failure or a timeout. Whatever the script, a run in it ends, and never with
a failure of the engine. The sandbox has to be able to read the input tapes, which limits how deep
the first input may be nested. The later inputs come from output tapes that were read themselves, so
they keep within the limit.
-/

namespace AgentChain

theorem OutputTape.depth_input_lt (h : next? v = .ok next) : next.input.depth < v.depth := by
  obtain ⟨action, payload, haction, hpayload, -, hinput, -⟩ := next?_eq_ok_iff.mp h
  have hpayload_lt := Json.Value.depth_lt_of_member? hpayload
  have haction_lt := Json.Value.depth_lt_of_member? haction
  rw [hinput]
  cases hdata : payload.member? "input_data" with
  | none => exact Nat.zero_lt_of_lt haction_lt
  | some data =>
    exact ((Json.Value.depth_lt_of_member? hdata).trans hpayload_lt).trans haction_lt

namespace Engine

open Workflow (AbortReason Limits Machine Record Status State)
open Sandbox (Scripted Observed)

/-! ### The input of the next task -/

section Depth

variable {setting : Setting S}

theorem depth_le_of_readOutput
    (h : ((readOutput box).result s).1 = .ok (.ok v)) : v.depth ≤ Json.depthLimit := by
  obtain ⟨answer, hread, htext⟩ := exists_result_readOutput box s
  rw [hread] at h
  obtain ⟨text, hv⟩ := htext v (Except.ok.inj h)
  exact Json.depth_le_of_read? hv

theorem depth_next_lt (hdepth : task.input.depth < Json.depthLimit)
    (h : (step setting n task).result s = (.ok result, after)) :
    (result.next task).input.depth < Json.depthLimit := by
  cases result with
  | complete | abort => exact hdepth
  | pending record progress next =>
    obtain ⟨x, hx, -, hanswer⟩ := answered_of_pending h
    obtain ⟨-, -, -, hnext⟩ := OutputTape.interpret_eq_pending_iff.mp hanswer
    exact (OutputTape.depth_input_lt hnext).trans_le (depth_le_of_readOutput hx.read)

end Depth

/-! ### One step -/

/-- A remembered call is of the module of the agent of a record, and the input tape of the call
carried the trace id of the record. -/
def Observes (table : Agent.Table) (call : Observed) (record : Record) : Prop :=
  Json.lookup? record.agent table = some call.module ∧ call.tape.traceId = record.traceId

section Scripted

variable {setting : Setting Scripted} {n : UInt32} {task : Task} {s : Session Scripted}

/-- A step never fails. If it executes, it makes one call and leaves a record of it, and otherwise
it leaves none. -/
theorem exists_result_step (hbox : setting.box = .scripted) (n : UInt32)
    (hdepth : task.input.depth < Json.depthLimit) (hreply : s.state.HasReply) :
    ∃ result after calls, (step setting n task).result s = (.ok result, after) ∧
      after.state.HasReply ∧ after.state.calls = s.state.calls ++ calls ∧
      List.Forall₂ (Observes setting.table) calls result.record?.toList := by
  cases hmodule : setting.module? task.agent with
  | none =>
    exact ⟨_, s, [], step_of_unknown hmodule, hreply, (List.append_nil _).symm, .nil⟩
  | some module =>
    obtain ⟨payload, htape⟩ :=
      InputTape.exists_reread? (show (inputOf task s).payload.depth < _ from hdepth)
    obtain ⟨reply, hsome⟩ := hreply.exists_reply?
    obtain ⟨record, hrecord, hagent, htrace⟩ :=
      exists_record_verdict setting n task.agent (freshId s) reply
    refine ⟨_, _, _, step_of_reply hbox hmodule htape hsome, ?_, calls_judged .., ?_⟩
    · rw [state_judged]
      exact Scripted.HasReply.afterReply hreply
    · rw [hrecord]
      refine .cons ⟨?_, htrace.symm⟩ .nil
      rw [hagent]
      exact hmodule

/-! ### Runs -/

theorem exists_result_loop (hbox : setting.box = .scripted) (fuel : Nat) (m : Machine) (task : Task)
    (hdepth : task.input.depth < Json.depthLimit) (hreply : s.state.HasReply) :
    ∃ m' s', (loop setting fuel m task).result s = (.ok m', s') := by
  induction fuel generalizing m task s with
  | zero => exact ⟨m, s, rfl⟩
  | succ fuel ih =>
    unfold loop
    cases m.currentStep? with
    | none => exact ⟨m, s, rfl⟩
    | some n =>
      obtain ⟨result, after, _, hstep, hafter, -⟩ := exists_result_step hbox n hdepth hreply
      obtain ⟨m', s', hloop⟩ := ih (result.feed m) _ (depth_next_lt hdepth hstep) hafter
      exact ⟨m', s', (Action.result_bind_of_ok hstep _).trans hloop⟩

theorem exists_result_run (hbox : setting.box = .scripted) (rootAgent : String)
    (config : Json.Value) (hdepth : input.depth < Json.depthLimit) (hreply : s.state.HasReply) :
    ∃ r s', (run setting rootAgent input config).result s = (.ok r, s') := by
  obtain ⟨m, t, hloop⟩ := exists_result_loop hbox setting.limits.stepBound
    (.started setting.limits) { agent := rootAgent, input, config }
    (s := s.reporting (startEvent setting rootAgent)) hdepth hreply
  rw [run, Action.result_bind_of_ok (Session.result_report _ s), Action.result_bind_of_ok hloop]
  exact ⟨_, _, Action.result_bind_of_ok (Session.result_reportAll _ t) _⟩

theorem Trail.exists_calls (h : Trail setting m task s visits m' u) (hbox : setting.box = .scripted)
    (hdepth : task.input.depth < Json.depthLimit) (hreply : s.state.HasReply) :
    ∃ calls, u.state.calls = s.state.calls ++ calls ∧
      List.Forall₂ (Observes setting.table) calls (visits.filterMap (·.result.record?)) := by
  induction h with
  | ended => exact ⟨[], by simp, .nil⟩
  | @step m _ n task s t u result visits hn hstep rest ih =>
    obtain ⟨_, _, first, hstep', hafter, hcalls, hfirst⟩ := exists_result_step hbox n hdepth hreply
    cases hstep.symm.trans hstep'
    obtain ⟨later, hlater, hrest⟩ := ih (depth_next_lt hdepth hstep) hafter
    refine ⟨first ++ later, by rw [hlater, hcalls, List.append_assoc], ?_⟩
    have hrecords : (⟨n, task, s, result, t⟩ :: visits).filterMap (·.result.record?) =
        result.record?.toList ++ visits.filterMap (·.result.record?) := by
      cases hrecord : result.record? <;> simp [hrecord]
    exact hrecords ▸ List.rel_append hfirst hrest

end Scripted

/-- What the history of a run that begins with the agent `root` is to the calls that were made. -/
structure Chronicle (table : Agent.Table) (limits : Limits) (root : String) (r : Run)
    (calls : List Observed) : Prop where
  terminal : r.state.isTerminal = true
  length_le : calls.length ≤ limits.stepBound
  /-- There is one record for each call, with the agent that was called and the trace id that was on
  the input tape of the call. -/
  observed : List.Forall₂ (Observes table) calls r.history
  numbered : r.history.map (·.step.toNat) = List.range' 1 r.history.length
  /-- If the first agent is known, all records but the last are pending with a progress, and the
  last one tells how the run ended. -/
  closed : (Json.lookup? root table).isSome = true → ∃ initial last,
    r.history = initial ++ [last] ∧
    (∀ record ∈ initial, record.status = .pending ∧ record.progress.isSome = true) ∧
    Closes limits.stepBound r.history.length last r.state
  /-- If the first agent is not known, nothing is called. -/
  unknown : Json.lookup? root table = none →
    r.state = .aborted (.unknownAgent 1 root) ∧ r.history = []

theorem Trail.chronicle (hbox : setting.box = .scripted)
    (h : Trail setting (.started setting.limits) task s visits m u)
    (hdepth : task.input.depth < Json.depthLimit) (hreply : s.state.HasReply) :
    ∃ calls, u.state.calls = s.state.calls ++ calls ∧
      Chronicle setting.table setting.limits task.agent ⟨m.state, m.history⟩ calls := by
  have hsound := Machine.sound_started setting.limits
  obtain ⟨calls, hcalls, hobserved⟩ := h.exists_calls hbox hdepth hreply
  obtain ⟨hterminal, hlength⟩ := h.isTerminal hsound rfl
  have hhistory : m.history = visits.filterMap (·.result.record?) := h.history_eq
  rw [← hhistory] at hobserved
  refine ⟨calls, hcalls, hterminal, hobserved.length_eq.trans_le hlength, hobserved, ?_, ?_, ?_⟩
  · cases hknown : setting.module? task.agent with
    | none => simp [(h.of_unknown rfl hknown).1, Machine.started, Machine.new]
    | some module =>
      obtain ⟨initial, last, hinitial, hnumbers, -⟩ :=
        h.exists_closes hsound rfl (by rw [hknown]; rfl)
      have hrecords : m.history = initial ++ [last] := hinitial
      simpa [hrecords] using hnumbers
  · intro hknown
    obtain ⟨initial, last, hinitial, -, hpending, hclose⟩ := h.exists_closes hsound rfl hknown
    exact ⟨initial, last, hinitial, hpending, hclose⟩
  · intro hunknown
    obtain ⟨hnone, hstate⟩ := h.of_unknown rfl hunknown
    exact ⟨hstate, hnone⟩

/-- Every run in a scripted sandbox with a reply ends, whatever the script says and whatever the
bounds are, and its history is exact, as long as the input can be written on a tape. -/
theorem scripted_run_ends (table : Agent.Table) (limits : Limits) (timeoutMs : Option Nat)
    (rootAgent : String) (input config : Json.Value) (s : Session Scripted)
    (hdepth : input.depth ≤ 126) (hreply : s.state.HasReply) :
    ∃ r s' calls,
      (run { box := .scripted, table, limits, timeoutMs } rootAgent input config).result s =
        (.ok r, s') ∧
      s'.state.calls = s.state.calls ++ calls ∧ Chronicle table limits rootAgent r calls := by
  have hroom : input.depth < Json.depthLimit := Nat.lt_succ_of_le hdepth
  obtain ⟨r, s', hrun⟩ : ∃ r s', (run { box := .scripted, table, limits, timeoutMs } rootAgent input
      config).result s = (.ok r, s') := exists_result_run rfl rootAgent config hroom hreply
  obtain ⟨visits, m, t, rfl, htrail, rfl⟩ := run_trail hrun
  obtain ⟨calls, hcalls, hchronicle⟩ := htrail.chronicle rfl hroom hreply
  exact ⟨_, _, calls, hrun, by rw [Session.state_foldl_reporting, hcalls]; rfl, hchronicle⟩

/-- The first of two agents hands over to the second, which completes the work. -/
theorem relay_run_ends : (Json.Value.depth .null ≤ 126 ∧ relaySession.state.HasReply) ∧
    ∃ r s' calls, (run relay "planner" .null .null).result relaySession = (.ok r, s') ∧
      s'.state.calls = relaySession.state.calls ++ calls ∧
      Chronicle relay.table relay.limits "planner" r calls :=
  have hdepth : Json.Value.depth .null ≤ 126 := Nat.zero_le _
  have hreply : relaySession.state.HasReply := .inl (List.cons_ne_nil _ _)
  ⟨⟨hdepth, hreply⟩, scripted_run_ends relay.table relay.limits relay.timeoutMs "planner" .null
    .null relaySession hdepth hreply⟩

end Engine

end AgentChain
