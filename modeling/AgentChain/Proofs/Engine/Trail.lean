import AgentChain.Engine
import AgentChain.Proofs.Action
import AgentChain.Proofs.Workflow.Invariant

/-!
# The trail of a run

A run of the engine visits one step after another. Each visit begins in the session that the one
before it left, with the task that the one before it named, and its result moves the state machine.
The trail of a run lists its visits up to the one after which the machine has ended. Nothing is
assumed of the sandbox: its actions may do anything to the files and to its state.

The bound on the number of steps that a run is given never cuts a run off, because the machine ends
by itself within that bound.
-/

namespace AgentChain.Engine

open Workflow (AbortReason Machine Move Record Status State)
open Action (result_bind_of_ok)
open Session (onState result_report)

variable {S : Type} {setting : Setting S} {n : UInt32} {m : Machine} {task : Task}

/-! ### What an output tape leads to -/

def recordOf (n : UInt32) (agent traceId : String) (elapsedMs : UInt64) (status : Status)
    (progress : Option Float) : Record :=
  { step := n, agent, traceId, status, progress, elapsedMs }

section Judge

variable {agent traceId : String} {record : Status → Option Float → Record} {output : Json.Value}
  {r : Record} {next : Task}

theorem checkTrace_eq_ok_iff :
    OutputTape.checkTrace output traceId = .ok () ↔ OutputTape.traceId? output = some traceId := by
  simp [OutputTape.checkTrace]

theorem judge_eq_complete
    (h : (judge setting n agent traceId record output).1 = .complete r value) :
    OutputTape.traceId? output = some traceId ∧
      ∃ progress, OutputTape.interpret output = .ok (.complete value progress) := by
  revert h
  fun_cases judge with
  | case3 hcheck value progress hanswer =>
    rintro ⟨⟩
    exact ⟨checkTrace_eq_ok_iff.1 hcheck, progress, hanswer⟩
  | _ => nofun

theorem judge_eq_pending
    (h : (judge setting n agent traceId record output).1 = .pending r progress next) :
    OutputTape.traceId? output = some traceId ∧
      OutputTape.interpret output = .ok (.pending progress next) := by
  revert h
  fun_cases judge with
  | case5 hcheck progress next hanswer =>
    rintro ⟨⟩
    exact ⟨checkTrace_eq_ok_iff.1 hcheck, hanswer⟩
  | _ => nofun

end Judge

/-! ### What a step comes to -/

/-- What passed in a step. -/
structure Exchange (S : Type) where
  /-- The trace id that was drawn for the step. -/
  traceId : String
  /-- The session right after the input tape was written. -/
  written : Session S
  /-- The session right after the output tape was removed. -/
  cleared : Session S
  /-- The session right after the call of the module. -/
  returned : Session S
  /-- The document on the output tape after the call. -/
  output : Json.Value

/-- A step that begins in the session `s` draws a fresh trace id and writes it on the input tape,
and the call of the module leaves a document on the output tape. -/
structure Answered (setting : Setting S) (n : UInt32) (task : Task) (s : Session S)
    (x : Exchange S) : Prop where
  fresh : x.traceId = s.world.supply s.world.drawn
  written : (onState (setting.box.writeFile Sandbox.inputTape
      (Bytes.ofText (InputTape.toValue ⟨x.traceId, task.input⟩).compact))).result s.afterDraw =
    (.ok (), x.written)
  cleared : (onState (setting.box.removeFile Sandbox.outputTape)).result x.written =
    (.ok (), x.cleared)
  finished : ∃ module elapsedMs, setting.module? task.agent = some module ∧
    (call setting task module).result
        (x.cleared.reporting (startedEvent n task.agent x.traceId)) =
      (.ok (.finished, elapsedMs), x.returned)
  read : ((readOutput setting.box).result x.returned).1 = .ok (.ok x.output)

/-- A task is handed over exactly when both tapes are made ready, with the next id of the supply. -/
theorem handOver_eq_ok_iff :
    (handOver setting n task).result s = (.ok traceId, t) ↔
      traceId = s.world.supply s.world.drawn ∧ ∃ written cleared,
        (onState (setting.box.writeFile Sandbox.inputTape
            (Bytes.ofText (InputTape.toValue ⟨traceId, task.input⟩).compact))).result s.afterDraw =
          (.ok (), written) ∧
        (onState (setting.box.removeFile Sandbox.outputTape)).result written = (.ok (), cleared) ∧
        t = cleared.reporting (startedEvent n task.agent traceId) := by
  rw [handOver, result_bind_of_ok (Session.result_draw s)]
  constructor
  · intro h
    obtain ⟨⟨⟩, written, hwrite, hremove⟩ := Action.result_bind_eq_ok.mp h
    obtain ⟨⟨⟩, cleared, hclear, hreport⟩ := Action.result_bind_eq_ok.mp hremove
    rw [result_bind_of_ok (result_report _ cleared)] at hreport
    cases hreport
    exact ⟨rfl, written, cleared, hwrite, hclear, rfl⟩
  · rintro ⟨rfl, written, cleared, hwrite, hclear, rfl⟩
    rw [result_bind_of_ok hwrite, result_bind_of_ok hclear]
    exact result_bind_of_ok (result_report _ cleared) _

/-- Reading the output tape never fails: a tape that cannot be read is an answer, too. Only the file
is read, and a document that is found is the value of a JSON text. -/
theorem exists_result_readOutput (box : Sandbox S) (s : Session S) :
    ∃ answer, (readOutput box).result s =
        (.ok answer, ((onState (box.readBytes Sandbox.outputTape)).result s).2) ∧
      ∀ v, answer = .ok v → ∃ text, Json.read? text = some v := by
  rw [readOutput, Action.result_bind, Action.result_attempt]
  rcases ((onState (box.readBytes Sandbox.outputTape)).result s).1 with f | _ | raw
  · exact ⟨_, rfl, nofun⟩
  · exact ⟨_, rfl, nofun⟩
  · dsimp only
    cases hread : raw.text?.bind Json.read? with
    | none => exact ⟨_, rfl, nofun⟩
    | some v =>
      obtain ⟨text, -, htext⟩ := Option.bind_eq_some_iff.mp hread
      exact ⟨_, rfl, fun _ hv => ⟨text, Except.ok.inj hv ▸ htext⟩⟩

/-- What a step comes to after the call of the module has returned. -/
inductive Followed (setting : Setting S) (n : UInt32) (agent traceId : String) (elapsedMs : UInt64)
    (returned : Session S) : Sandbox.Ending → Result → Session S → Prop
  /-- The agent failed. -/
  | failed (reason : String) :
    Followed setting n agent traceId elapsedMs returned (.failed reason)
      (.abort (recordOf n agent traceId elapsedMs .failed none)
        (.invalidResponse n ("agent failed: " ++ reason))) returned
  /-- The agent ran out of time. -/
  | timedOut :
    Followed setting n agent traceId elapsedMs returned .timedOut
      (.abort (recordOf n agent traceId elapsedMs .failed none)
        (.stepTimeout n agent ((setting.timeoutMs.map saturated).getD 0))) returned
  /-- There is no document on the output tape. -/
  | unreadable {reason : String} {after : Session S}
    (read : (readOutput setting.box).result returned = (.ok (.error reason), after)) :
    Followed setting n agent traceId elapsedMs returned .finished
      (.abort (recordOf n agent traceId elapsedMs .failed none) (.invalidResponse n reason)) after
  /-- The document on the output tape is judged. -/
  | judged {output : Json.Value} {t : Session S}
    (read : (readOutput setting.box).result returned = (.ok (.ok output), t)) :
    Followed setting n agent traceId elapsedMs returned .finished
      (judge setting n agent traceId (recordOf n agent traceId elapsedMs) output).1
      ((judge setting n agent traceId (recordOf n agent traceId elapsedMs) output).2.foldl
        Session.reporting t)

theorem exists_followed (setting : Setting S) (n : UInt32) (agent traceId : String)
    (ending : Sandbox.Ending) (elapsedMs : UInt64) (returned : Session S) :
    ∃ result after, (afterCall setting n agent traceId (ending, elapsedMs)).result returned =
        (.ok result, after) ∧
      Followed setting n agent traceId elapsedMs returned ending result after := by
  cases ending with
  | failed reason => exact ⟨_, _, rfl, .failed reason⟩
  | timedOut => exact ⟨_, _, rfl, .timedOut⟩
  | finished =>
    obtain ⟨answer, hread, -⟩ := exists_result_readOutput setting.box returned
    have hafter : (afterCall setting n agent traceId (.finished, elapsedMs)).result returned = _ :=
      result_bind_of_ok hread _
    cases answer with
    | error reason => exact ⟨_, _, hafter, .unreadable hread⟩
    | ok output =>
      refine ⟨_, _, hafter.trans ?_, .judged hread⟩
      exact result_bind_of_ok (Session.result_reportAll _ _) _

/-- Everything that a step can come to when it gives a value: an agent that is not known is not
called, and otherwise the task is handed over, the module is called, and the call is followed. -/
theorem step_cases (h : (step setting n task).result s = (.ok result, after)) :
    (setting.module? task.agent = none ∧ result = .abort none (.unknownAgent n task.agent) ∧
      after = s) ∨
    ∃ module traceId called ending elapsedMs returned,
      setting.module? task.agent = some module ∧
      (handOver setting n task).result s = (.ok traceId, called) ∧
      (call setting task module).result called = (.ok (ending, elapsedMs), returned) ∧
      Followed setting n task.agent traceId elapsedMs returned ending result after := by
  unfold step at h
  cases hmodule : setting.module? task.agent with
  | none =>
    rw [hmodule] at h
    cases h
    exact .inl ⟨rfl, rfl, rfl⟩
  | some module =>
    rw [hmodule] at h
    obtain ⟨traceId, called, hhanded, h⟩ := Action.result_bind_eq_ok.mp h
    obtain ⟨⟨ending, elapsedMs⟩, returned, hcall, h⟩ := Action.result_bind_eq_ok.mp h
    obtain ⟨result', after', hafter, hfollowed⟩ :=
      exists_followed setting n task.agent traceId ending elapsedMs returned
    rw [hafter] at h
    cases h
    exact .inr ⟨module, traceId, called, ending, elapsedMs, returned, rfl, hhanded, hcall,
      hfollowed⟩

/-! ### The machine after a step -/

/-- The call of the machine that the result of a step makes. -/
def Result.move : Result → Move
  | complete record result => .complete record result
  | pending record progress _ => .pending record progress
  | abort record reason => .abort record reason

theorem feed_eq_after (m : Machine) (result : Result) : result.feed m = m.after result.move := by
  cases result <;> rfl

/-- A running machine runs on only after a pending step, and the number of the step grows by one. -/
theorem pending_of_feed_running {n k : UInt32} {result : Result}
    (hrun : m.state = .running n) (hnext : (result.feed m).state = .running k) :
    k.toNat = n.toNat + 1 ∧ ∃ record progress next, result = .pending record progress next := by
  cases result with
  | complete record result => simp [Result.feed, Machine.complete, hrun] at hnext
  | pending record progress next =>
    exact ⟨Machine.toNat_step_pending hrun record progress hnext, record, progress, next, rfl⟩
  | abort record reason => simp [Result.feed, Machine.abort, hrun, State.isTerminal] at hnext

def Result.record? : Result → Option Record
  | complete record _ => some record
  | pending record _ _ => some record
  | abort record _ => record

theorem history_feed (hrun : m.state = .running n) (result : Result) :
    (result.feed m).history = m.history ++ result.record?.toList := by
  cases result with
  | complete record result => simp [Result.feed, Result.record?, Machine.complete, hrun]
  | pending record progress next => simp [Result.feed, Result.record?, Machine.pending, hrun]
  | abort record reason =>
    simp [Result.feed, Result.record?, Machine.abort, hrun, State.isTerminal]

theorem sound_feed (hm : m.Sound) (result : Result) : (result.feed m).Sound :=
  feed_eq_after m result ▸ Machine.sound_after hm _

theorem limits_feed (m : Machine) (result : Result) : (result.feed m).limits = m.limits :=
  feed_eq_after m result ▸ Machine.limits_after m _

theorem state_of_currentStep? (h : m.currentStep? = some n) : m.state = .running n := by
  cases hm : m.state with
  | running k => simpa [Machine.currentStep?, hm] using h
  | idle | complete | aborted => simp [Machine.currentStep?, hm] at h

/-! ### Trails -/

/-- One step of a run. -/
structure Visit (S : Type) where
  number : UInt32
  task : Task
  /-- The session in which the step begins. -/
  before : Session S
  result : Result
  /-- The session that the step leaves. -/
  after : Session S

/-- The steps of a run from a machine, a task and a session on, up to the end of the run. -/
inductive Trail (setting : Setting S) :
    Machine → Task → Session S → List (Visit S) → Machine → Session S → Prop
  /-- A machine that does not run makes no step. -/
  | ended {m : Machine} (task : Task) (s : Session S) (h : m.currentStep? = none) :
    Trail setting m task s [] m s
  /-- The result of a step moves the machine and names the task of the next one. -/
  | step {m m' : Machine} {n : UInt32} {task : Task} {s t u : Session S} {result : Result}
    {visits : List (Visit S)} (hn : m.currentStep? = some n)
    (hstep : (step setting n task).result s = (.ok result, t))
    (rest : Trail setting (result.feed m) (result.next task) t visits m' u) :
    Trail setting m task s (⟨n, task, s, result, t⟩ :: visits) m' u

namespace Trail

variable {m m' : Machine} {task : Task} {s u : Session S} {visits : List (Visit S)}

section

variable (h : Trail setting m task s visits m' u)
include h

theorem step_of_mem (hv : v ∈ visits) :
    (Engine.step setting v.number v.task).result v.before = (.ok v.result, v.after) := by
  induction h with
  | ended => simp at hv
  | step hn hstep rest ih =>
    obtain rfl | hv := List.mem_cons.mp hv
    · exact hstep
    · exact ih hv

theorem history_eq : m'.history = m.history ++ visits.filterMap (·.result.record?) := by
  induction h with
  | ended => simp
  | @step _ _ _ _ _ _ _ result visits hn hstep rest ih =>
    rw [ih, history_feed (state_of_currentStep? hn)]
    cases hrecord : result.record? <;> simp [hrecord]

theorem toNat_number (hrun : m.state = .running n) {k : Nat} (hk : k < visits.length) :
    visits[k].number.toNat = n.toNat + k := by
  induction h generalizing n k with
  | ended => simp at hk
  | @step m _ n' _ _ _ _ result visits hn hstep rest ih =>
    obtain rfl : n' = n := by simpa [Machine.currentStep?, hrun] using hn.symm
    cases k with
    | zero => rfl
    | succ k =>
      have hk' : k < visits.length := by simpa using hk
      cases hnext : (result.feed m).currentStep? with
      | none =>
        cases rest with
        | ended => simp at hk'
        | step hn' => simp [hnext] at hn'
      | some n'' =>
        have hrun' := state_of_currentStep? hnext
        rw [List.getElem_cons_succ, ih hrun' hk', (pending_of_feed_running hrun hrun').1]
        omega

/-- A visit that another one follows was pending; it named the task of the other one, which begins
in the session that it left. -/
theorem pending_of_lt {k : Nat} (hk : k < visits.length) (hnext : k + 1 < visits.length) :
    visits[k + 1].before = visits[k].after ∧
      ∃ record progress, visits[k].result = .pending record progress visits[k + 1].task := by
  induction h generalizing k with
  | ended => simp at hk
  | step hn hstep rest ih =>
    cases k with
    | zero =>
      cases rest with
      | ended => simp at hnext
      | step hn' =>
        obtain ⟨-, record, progress, next, rfl⟩ :=
          pending_of_feed_running (state_of_currentStep? hn) (state_of_currentStep? hn')
        exact ⟨rfl, record, progress, rfl⟩
    | succ k => exact ih (by simpa using hk) (by simpa using hnext)

theorem exists_last (hm : m.Sound) (hvisits : visits ≠ []) :
    ∃ last : Machine, last.Sound ∧ last.limits = m.limits ∧
      last.state = .running (visits.getLast hvisits).number ∧
      m' = (visits.getLast hvisits).result.feed last := by
  induction h with
  | ended => exact absurd rfl hvisits
  | @step m _ _ _ _ _ _ result visits hn hstep rest ih =>
    cases rest with
    | ended => exact ⟨m, hm, rfl, state_of_currentStep? hn, rfl⟩
    | step hn' hstep' rest' =>
      obtain ⟨last, hlast, hlimits, hrun, hend⟩ := ih (sound_feed hm result) (List.cons_ne_nil _ _)
      exact ⟨last, hlast, hlimits.trans (limits_feed m result), hrun, hend⟩

theorem aborted_of_abort (hm : m.Sound) (hk : k < visits.length)
    (hresult : visits[k].result = .abort record reason) :
    k + 1 = visits.length ∧ m'.state = .aborted reason := by
  have hlast : k + 1 = visits.length := by
    by_contra hne
    obtain ⟨-, _, _, hpending⟩ := h.pending_of_lt hk (by omega)
    cases hresult.symm.trans hpending
  refine ⟨hlast, ?_⟩
  have hvisits : visits ≠ [] := List.ne_nil_of_length_pos (by omega)
  obtain ⟨last, -, -, hrun, rfl⟩ := h.exists_last hm hvisits
  have hget : visits.getLast hvisits = visits[k] := by
    simp [List.getLast_eq_getElem, ← hlast]
  simp [hget, hresult, Result.feed, Machine.abort, hrun, State.isTerminal]

theorem currentStep?_eq_none : m'.currentStep? = none := by
  induction h with
  | ended _ _ h => exact h
  | step _ _ _ ih => exact ih

end

end Trail

/-- The steps of a run that gives a value form a trail. A sound machine ends before the fuel runs
out: as long as it runs, the fuel exceeds what is left up to the bound of steps. -/
theorem loop_trail {m m' : Machine} (hm : m.Sound)
    (hfuel : ∀ n, m.state = .running n → m.limits.stepBound < n.toNat + fuel)
    (h : (loop setting fuel m task).result s = (.ok m', s')) :
    ∃ visits, Trail setting m task s visits m' s' := by
  induction fuel generalizing m task s with
  | zero =>
    cases h
    refine ⟨[], .ended task _ ?_⟩
    cases hcurrent : m'.currentStep? with
    | none => rfl
    | some n =>
      have hrun := state_of_currentStep? hcurrent
      obtain ⟨-, hbound, -, -⟩ := hm.running n hrun
      have := hfuel n hrun
      omega
  | succ fuel ih =>
    unfold loop at h
    cases hcurrent : m.currentStep? with
    | none =>
      rw [hcurrent] at h
      cases h
      exact ⟨[], .ended task _ hcurrent⟩
    | some n =>
      rw [hcurrent] at h
      have hrun := state_of_currentStep? hcurrent
      obtain ⟨result, t, hstep, hrest⟩ := Action.result_bind_eq_ok.mp h
      obtain ⟨visits, hvisits⟩ := ih (sound_feed hm result) (fun k hk => by
        have := hfuel n hrun
        have := (pending_of_feed_running hrun hk).1
        rw [limits_feed]
        omega) hrest
      exact ⟨_, .step hcurrent hstep hvisits⟩

theorem result_run (setting : Setting S) (rootAgent : String) (input config : Json.Value)
    (s : Session S) :
    (run setting rootAgent input config).result s =
      match (loop setting setting.limits.stepBound (.started setting.limits)
        { agent := rootAgent, input, config }).result
          (s.reporting (startEvent setting rootAgent)) with
      | (.error f, t) => (.error f, t)
      | (.ok m, t) => (.ok { state := m.state, history := m.history },
          (endEvent? { state := m.state, history := m.history }).toList.foldl
            Session.reporting t) := by
  rw [run, result_bind_of_ok (result_report _ s), Action.result_bind]
  rcases (loop setting setting.limits.stepBound (.started setting.limits)
    { agent := rootAgent, input, config }).result
      (s.reporting (startEvent setting rootAgent)) with ⟨f | m, t⟩
  · rfl
  · exact result_bind_of_ok (Session.result_reportAll _ t) _

theorem run_trail (h : (run setting rootAgent input config).result s = (.ok r, s')) :
    ∃ visits m t, r = { state := m.state, history := m.history } ∧
      Trail setting (.started setting.limits) { agent := rootAgent, input, config }
        (s.reporting (startEvent setting rootAgent)) visits m t ∧
      s' = (endEvent? r).toList.foldl Session.reporting t := by
  rw [run, result_bind_of_ok (result_report _ s)] at h
  obtain ⟨m, t, hloop, hend⟩ := Action.result_bind_eq_ok.mp h
  rw [result_bind_of_ok (Session.result_reportAll _ t)] at hend
  cases hend
  obtain ⟨visits, hvisits⟩ := loop_trail (Machine.sound_started setting.limits) (fun n hn => by
    cases hn
    exact Nat.lt_add_of_pos_left Nat.one_pos) hloop
  exact ⟨visits, m, t, rfl, hvisits, rfl⟩

end AgentChain.Engine
