import AgentChain.Proofs.Engine.ScriptedStep
import AgentChain.Proofs.Engine.Soundness

/-!
# The hand-off between agents

In a scripted sandbox it can be seen what each call is given. The first call gets what the run was
asked to do, and each later call gets just what the output tape of the call before it names: nothing
of an earlier task is left over. This holds of every script, also of one that makes the run fail.

A payload passes through the text of a tape. So a float in it may arrive as another float, and the
statement about payloads is about those whose numbers are integers.
-/

namespace AgentChain

theorem OutputTape.sorted_input (hv : v.Sorted) (h : next? v = .ok next) : next.input.Sorted := by
  obtain ⟨action, payload, haction, hpayload, -, hinput, -⟩ := next?_eq_ok_iff.mp h
  rw [hinput]
  cases hdata : payload.member? "input_data" with
  | none => exact trivial
  | some data => exact ((hv.member? haction).member? hpayload).member? hdata

namespace Engine

open Sandbox (Scripted Observed Reply)
open Workflow (Limits Machine)

/-- A call is given a task: the module of its agent, its input and its configuration. -/
structure Carries (table : Agent.Table) (task : Task) (c : Observed) : Prop where
  module : Json.lookup? task.agent table = some c.module
  payload : task.input.Integral → c.tape.payload = task.input
  config : c.config = task.config

/-- A reply to a call with the given trace id leaves a document on the output tape that is accepted
as pending and names a task. -/
def HandsOn (reply? : Option Reply) (traceId : String) (next : Task) : Prop :=
  ∃ reply output progress, reply? = some reply ∧
    documentOf (reply.tape? traceId) = .ok output ∧
    OutputTape.traceId? output = some traceId ∧
    OutputTape.interpret output = .ok (.pending progress next) ∧
    OutputTape.Gives output (.pending progress next)

/-- What the calls of a run that begins in the session `s` with a task are to the output tapes. The
output tape of a call is what the reply of the same number wrote. -/
structure Handed (table : Agent.Table) (s : Session Scripted) (task : Task)
    (calls : List Observed) : Prop where
  /-- Each call has a trace id of its own. -/
  traced : ∀ k c, calls[k]? = some c → c.tape.traceId = s.world.supply (s.world.drawn + k)
  first : ∀ c, calls[0]? = some c → Carries table task c
  /-- If a call follows, the tape of the one before it was accepted and names its task. -/
  next : ∀ k c c', calls[k]? = some c → calls[k + 1]? = some c' →
    ∃ next, HandsOn (s.state.reply? k) c.tape.traceId next ∧ Carries table next c'

/-! ### One step -/

/-- No call can be made for a task: its agent is not known, or its input is nested too deeply for a
tape. -/
def Uncallable (table : Agent.Table) (task : Task) : Prop :=
  Json.lookup? task.agent table = none ∨ Json.depthLimit ≤ task.input.depth

/-- The reply to a call was taken, and the step has come to a result. -/
structure Replied (s t : Session Scripted) (c : Observed) (result : Result) : Prop where
  record : ∃ record, result.record? = some record
  replies : ∀ k, t.state.reply? k = s.state.reply? (k + 1)
  supply : ∀ k, t.world.supply (t.world.drawn + k) = s.world.supply (s.world.drawn + (k + 1))
  pending : ∀ record progress next, result = .pending record progress next →
    HandsOn (s.state.reply? 0) c.tape.traceId next ∧ next.input.Sorted

section Step

variable {setting : Setting Scripted} {n : UInt32} {task : Task} {s t : Session Scripted}
  {module : String} {tape : InputTape} {reply : Reply}

theorem handsOn_of_verdict (h : (verdict setting n agent traceId reply).1 = .pending record progress next) :
    HandsOn (some reply) traceId next ∧ next.input.Sorted := by
  obtain ⟨output, hdocument, hid, hanswer⟩ := verdict_of_pending h
  obtain ⟨hformed, hgives⟩ := OutputTape.interpret_eq_ok_iff.mp hanswer
  refine ⟨⟨reply, output, progress, rfl, hdocument, hid, hanswer, hgives⟩, ?_⟩
  obtain ⟨raw, text, -, -, hread⟩ := documentOf_eq_ok hdocument
  exact OutputTape.sorted_input (Json.sorted_of_read? hread)
    (OutputTape.interpret_eq_pending_iff.mp hanswer).2.2.2

/-- What a step is to the calls: it makes none and does not lead on, or it makes one that is given
the task, and has come to a result once the call was replied to. -/
theorem step_hands (hbox : setting.box = .scripted) (hsorted : task.input.Sorted)
    (h : (step setting n task).result s = (r, t)) :
    (t.state.calls = s.state.calls ∧ Uncallable setting.table task ∧
      ∀ result, r = .ok result → result = .abort none (.unknownAgent n task.agent)) ∨
    ∃ c, t.state.calls = s.state.calls ++ [c] ∧ c.tape.traceId = freshId s ∧
      Carries setting.table task c ∧ ∀ result, r = .ok result → Replied s t c result := by
  cases hmodule : setting.module? task.agent with
  | none =>
    cases h.symm.trans (step_of_unknown hmodule)
    exact .inl ⟨rfl, .inl hmodule, by rintro _ ⟨⟩; rfl⟩
  | some module =>
    cases htape : (inputOf task s).reread? with
    | none =>
      cases h.symm.trans (step_of_unreadable hbox hmodule htape)
      refine .inl ⟨rfl, .inr (Nat.le_of_not_lt fun hdepth => ?_), nofun⟩
      obtain ⟨payload, hsome⟩ :=
        InputTape.exists_reread? (show (inputOf task s).payload.depth < _ from hdepth)
      cases htape.symm.trans hsome
    | some tape =>
      obtain ⟨-, hid, hpayload⟩ := InputTape.of_reread? htape
      have hcarries : Carries setting.table task { module, tape, config := task.config } :=
        ⟨hmodule, hpayload hsorted, rfl⟩
      refine .inr ⟨{ module, tape, config := task.config }, ?_⟩
      cases hreply : s.state.reply? 0 with
      | none =>
        cases h.symm.trans (step_of_silence hbox hmodule htape hreply)
        exact ⟨rfl, hid, hcarries, nofun⟩
      | some reply =>
        cases h.symm.trans (step_of_reply hbox hmodule htape hreply)
        refine ⟨calls_judged .., hid, hcarries, ?_⟩
        rintro _ ⟨⟩
        refine ⟨(exists_record_verdict setting n _ _ reply).imp fun _ h => h.1,
          fun _ => reply?_judged .., fun _ => supply_judged ..,
          fun record progress next hpending => ?_⟩
        rw [hreply, hid]
        exact handsOn_of_verdict hpending

end Step

/-! ### Runs -/

section Run

variable {setting : Setting Scripted} {table : Agent.Table} {task next : Task}
  {s t : Session Scripted} {c : Observed} {calls : List Observed} {m : Machine}

theorem handed_nil (table : Agent.Table) (s : Session Scripted) (task : Task) :
    Handed table s task [] where
  traced := by simp
  first := by simp
  next := by simp

theorem handed_singleton (hid : c.tape.traceId = freshId s) (hcarries : Carries table task c) :
    Handed table s task [c] where
  traced := by
    rintro (_ | k) c' hc'
    · cases hc'
      exact hid
    · simp at hc'
  first := by
    rintro c' ⟨⟩
    exact hcarries
  next := by simp

theorem Handed.cons (hid : c.tape.traceId = freshId s) (hcarries : Carries table task c)
    (hnext : HandsOn (s.state.reply? 0) c.tape.traceId next)
    (hreplies : ∀ k, t.state.reply? k = s.state.reply? (k + 1))
    (hsupply : ∀ k, t.world.supply (t.world.drawn + k) = s.world.supply (s.world.drawn + (k + 1)))
    (hcalls : Handed table t next calls) : Handed table s task (c :: calls) where
  traced := by
    rintro (_ | k) c' hc'
    · cases hc'
      exact hid
    · rw [← hsupply]
      exact hcalls.traced k c' hc'
  first := by
    rintro c' ⟨⟩
    exact hcarries
  next := by
    rintro (_ | k) c' c'' hc' hc''
    · cases hc'
      exact ⟨next, hnext, hcalls.first c'' hc''⟩
    · rw [← hreplies]
      exact hcalls.next k c' c'' hc' hc''

theorem loop_of_ended (h : m.currentStep? = none) :
    (loop setting fuel m task).result s = (.ok m, s) := by
  cases fuel with
  | zero => rfl
  | succ fuel =>
    rw [loop, h]
    rfl

theorem currentStep?_feed_abort (hrun : m.state = .running n)
    (record : Option Workflow.Record) (reason : Workflow.AbortReason) :
    ((Result.abort record reason).feed m).currentStep? = none := by
  simp [Result.feed, Machine.abort, Machine.currentStep?, hrun, Workflow.State.isTerminal]

/-- The calls that the steps of a run make. The run goes on only after a pending step, so the task
of the next step is the one that the last tape names. -/
theorem loop_hands (hbox : setting.box = .scripted) (fuel : Nat) (hsorted : task.input.Sorted)
    (h : (loop setting fuel m task).result s = (r, t)) :
    ∃ calls, t.state.calls = s.state.calls ++ calls ∧ Handed setting.table s task calls ∧
      (∀ m', r = .ok m' → m'.history.length = m.history.length + calls.length) ∧
      (calls = [] → fuel = 0 ∨ m.currentStep? = none ∨ Uncallable setting.table task) := by
  induction fuel generalizing m task s with
  | zero =>
    cases h
    exact ⟨[], (List.append_nil _).symm, handed_nil _ _ _, by rintro _ ⟨⟩; rfl, fun _ => .inl rfl⟩
  | succ fuel ih =>
    cases hn : m.currentStep? with
    | none =>
      cases h.symm.trans (loop_of_ended hn)
      exact ⟨[], (List.append_nil _).symm, handed_nil _ _ _, by rintro _ ⟨⟩; rfl,
        fun _ => .inr (.inl rfl)⟩
    | some n =>
      have hrun := state_of_currentStep? hn
      rw [loop, hn] at h
      dsimp only at h
      rw [Action.result_bind] at h
      rcases hstep : (step setting n task).result s with ⟨f | result, u⟩
      · rw [hstep] at h
        cases h
        obtain ⟨hcalls, hnone, -⟩ | ⟨c, hcalls, hid, hcarries, -⟩ := step_hands hbox hsorted hstep
        · exact ⟨[], hcalls.trans (List.append_nil _).symm, handed_nil _ _ _, by simp,
            fun _ => .inr (.inr hnone)⟩
        · exact ⟨[c], hcalls, handed_singleton hid hcarries, by simp, by simp⟩
      · rw [hstep] at h
        dsimp only at h
        have hhistory := history_feed hrun result
        obtain ⟨hcalls, hnone, hresult⟩ | ⟨c, hcalls, hid, hcarries, hreplied⟩ :=
          step_hands hbox hsorted hstep
        · obtain rfl := hresult result rfl
          cases h.symm.trans (loop_of_ended (currentStep?_feed_abort hrun _ _))
          refine ⟨[], hcalls.trans (List.append_nil _).symm, handed_nil _ _ _, ?_,
            fun _ => .inr (.inr hnone)⟩
          rintro _ ⟨⟩
          simp [hhistory, Result.record?]
        · have hreplied := hreplied result rfl
          obtain ⟨record, hrecord⟩ := hreplied.record
          rw [hrecord] at hhistory
          cases hk : (result.feed m).currentStep? with
          | none =>
            cases h.symm.trans (loop_of_ended hk)
            refine ⟨[c], hcalls, handed_singleton hid hcarries, ?_, by simp⟩
            rintro _ ⟨⟩
            simp [hhistory]
          | some k =>
            obtain ⟨-, record, progress, next, rfl⟩ :=
              pending_of_feed_running hrun (state_of_currentStep? hk)
            obtain ⟨hnext, hsorted⟩ := hreplied.pending record progress next rfl
            obtain ⟨calls, hlater, hhanded, hlength, -⟩ := ih hsorted h
            refine ⟨c :: calls, by rw [hlater, hcalls]; simp,
              .cons hid hcarries hnext hreplied.replies hreplied.supply hhanded, fun m' hm' => ?_,
              by simp⟩
            rw [hlength m' hm', hhistory]
            simp only [List.length_append, Option.toList_some, List.length_cons, List.length_nil]
            omega

end Run

/-- The calls of a run in a scripted sandbox, whatever the script is and whether or not the run
fails. Each call is given what the tape before it names, and there is one call for each record. The
values of the program have their members sorted. -/
theorem scripted_run_hands_over (table : Agent.Table) (limits : Limits) (timeoutMs : Option Nat)
    (rootAgent : String) (input config : Json.Value) (s s' : Session Scripted)
    (r : Except Failure Run) (hsorted : input.Sorted)
    (hrun : (run { box := .scripted, table, limits, timeoutMs } rootAgent input config).result s =
      (r, s')) :
    ∃ calls, s'.state.calls = s.state.calls ++ calls ∧
      Handed table s { agent := rootAgent, input, config } calls ∧
      (∀ run, r = .ok run → run.history.length = calls.length) ∧
      ((Json.lookup? rootAgent table).isSome = true → input.depth ≤ 126 → calls ≠ []) := by
  rcases hloop : (loop { box := .scripted, table, limits, timeoutMs } limits.stepBound
    (.started limits) { agent := rootAgent, input, config }).result
      (s.reporting (startEvent { box := .scripted, table, limits, timeoutMs } rootAgent)) with ⟨q, t⟩
  obtain ⟨calls, hcalls, hhanded, hlength, hnone⟩ := loop_hands rfl _ hsorted hloop
  have hfirst : (Json.lookup? rootAgent table).isSome = true → input.depth ≤ 126 → calls ≠ [] := by
    rintro hknown hdepth rfl
    obtain hfuel | hstate | hunknown | hdeep := hnone rfl
    · simp [Limits.stepBound] at hfuel
    · cases hstate
    · simp [hunknown] at hknown
    · exact absurd (hdeep.trans hdepth) (by decide)
  have hhanded : Handed table s { agent := rootAgent, input, config } calls :=
    ⟨hhanded.traced, hhanded.first, hhanded.next⟩
  rw [result_run, hloop] at hrun
  cases q with
  | error f =>
    cases hrun
    exact ⟨calls, hcalls, hhanded, nofun, hfirst⟩
  | ok m =>
    cases hrun
    refine ⟨calls, (congrArg Scripted.calls (Session.state_foldl_reporting _ t)).trans hcalls,
      hhanded, ?_, hfirst⟩
    rintro _ ⟨⟩
    exact (hlength m rfl).trans (Nat.zero_add _)

theorem relay_run_hands_over : Json.Value.null.Sorted ∧ ∃ r s' calls,
    (run relay "planner" .null .null).result relaySession = (.ok r, s') ∧
    s'.state.calls = calls ∧ calls.length = 2 ∧
    Handed relay.table relaySession { agent := "planner", input := .null, config := .null }
      calls := by
  obtain ⟨r, s', hrun, hends⟩ := Action.exists_of_map_toOption relay_ends
  obtain ⟨calls, hcalls, hhanded, hlength, -⟩ := scripted_run_hands_over relay.table relay.limits
    relay.timeoutMs "planner" .null .null relaySession s' (.ok r) trivial hrun
  exact ⟨trivial, r, s', calls, hrun, hcalls, (hlength r rfl).symm.trans (congrArg Prod.snd hends),
    hhanded⟩

end Engine

end AgentChain
