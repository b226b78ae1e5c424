import AgentChain.Proofs.Engine.Trail
import AgentChain.Proofs.Sandbox.Scripted

/-!
# One step in a scripted sandbox

A step writes the input tape and removes the output tape before it calls a module. So in a scripted
sandbox the only file contents that a step depends on are those that it has written itself: the step
is determined by the task, the trace id and the next reply of the script.
-/

namespace AgentChain.Engine

open Sandbox (Scripted Reply)
open Sandbox (outputTape inputTape)

/-! ### Output tapes -/

/-- The document on an output tape with the given contents, or why there is none. -/
def documentOf : Option Bytes → Except String Json.Value
  | none => .error "agent wrote no output tape"
  | some raw =>
    match raw.text?.bind Json.read? with
    | some v => .ok v
    | none => .error "output tape is not valid JSON: malformed document"

theorem documentOf_eq_ok (h : documentOf contents = .ok v) :
    ∃ raw text, contents = some raw ∧ raw.text? = some text ∧ Json.read? text = some v := by
  cases contents with
  | none => cases h
  | some raw =>
    cases hread : raw.text?.bind Json.read? with
    | none => simp [documentOf, hread] at h
    | some w =>
      obtain ⟨text, htext, hw⟩ := Option.bind_eq_some_iff.mp hread
      simp only [documentOf, hread, Except.ok.injEq] at h
      exact ⟨raw, text, rfl, htext, h ▸ hw⟩

theorem result_readOutput (s : Session Scripted) :
    (readOutput Sandbox.scripted).result s =
      (.ok (documentOf (s.state.memory.readBytes outputTape)), s) := by
  have hbytes : (Session.onState (Sandbox.scripted.readBytes outputTape)).result s =
      (.ok (s.state.memory.readBytes outputTape), s) := rfl
  rw [readOutput, Action.result_bind, Action.result_attempt, hbytes]
  cases s.state.memory.readBytes outputTape with
  | none => rfl
  | some raw => cases hread : raw.text?.bind Json.read? <;> simp only [documentOf, hread] <;> rfl

def verdict (setting : Setting Scripted) (n : UInt32) (agent traceId : String) (reply : Reply) :
    Result × List Event :=
  match reply.ending with
  | .failed reason =>
    (.abort (recordOf n agent traceId 0 .failed none)
      (.invalidResponse n ("agent failed: " ++ reason)), [])
  | .timedOut =>
    (.abort (recordOf n agent traceId 0 .failed none)
      (.stepTimeout n agent ((setting.timeoutMs.map saturated).getD 0)), [])
  | .finished =>
    match documentOf (reply.tape? traceId) with
    | .error reason =>
      (.abort (recordOf n agent traceId 0 .failed none) (.invalidResponse n reason), [])
    | .ok output => judge setting n agent traceId (recordOf n agent traceId 0) output

theorem exists_record_verdict (setting : Setting Scripted) (n : UInt32) (agent traceId : String)
    (reply : Reply) : ∃ record, (verdict setting n agent traceId reply).1.record? = some record ∧
      record.agent = agent ∧ record.traceId = traceId := by
  unfold verdict
  cases reply.ending with
  | failed reason => exact ⟨_, rfl, rfl, rfl⟩
  | timedOut => exact ⟨_, rfl, rfl, rfl⟩
  | finished =>
    cases documentOf (reply.tape? traceId) with
    | error reason => exact ⟨_, rfl, rfl, rfl⟩
    | ok output =>
      dsimp only
      fun_cases judge <;> exact ⟨_, rfl, rfl, rfl⟩

theorem verdict_of_pending
        (h : (verdict setting n agent traceId reply).1 = .pending record progress next) :
    ∃ output, documentOf (reply.tape? traceId) = .ok output ∧
      OutputTape.traceId? output = some traceId ∧
      OutputTape.interpret output = .ok (.pending progress next) := by
  unfold verdict at h
  cases hending : reply.ending with
  | failed reason => simp [hending] at h
  | timedOut => simp [hending] at h
  | finished =>
    cases hdocument : documentOf (reply.tape? traceId) with
    | error reason => simp [hending, hdocument] at h
    | ok output =>
      simp only [hending, hdocument] at h
      exact ⟨output, rfl, judge_eq_pending h⟩

/-! ### Steps -/

def freshId {S : Type} (s : Session S) : String :=
  s.world.supply s.world.drawn

def inputOf {S : Type} (task : Task) (s : Session S) : InputTape :=
  { traceId := freshId s, payload := task.input }

/-- The session in which the module for a task is called. -/
def handed (n : UInt32) (task : Task) (s : Session Scripted) : Session Scripted where
  world := (s.afterDraw.reporting (startedEvent n task.agent (freshId s))).world
  state := { s.state with
    memory := (s.state.memory.writeFile inputTape
      (Bytes.ofText (inputOf task s).toValue.compact)).removeFile outputTape }

/-- The session after the module was called and its tape was judged. -/
def judged (setting : Setting Scripted) (n : UInt32) (task : Task) (module : String)
    (tape : InputTape) (reply : Reply) (s : Session Scripted) : Session Scripted :=
  (verdict setting n task.agent (freshId s) reply).2.foldl Session.reporting
    { handed n task s with
      state := (handed n task s).state.answered
        { module, config := task.config, timeoutMs := setting.timeoutMs } tape reply }

section Step

variable {setting : Setting Scripted} {n : UInt32} {task : Task} {s : Session Scripted}
  {module : String} {tape : InputTape} {reply : Reply}

theorem result_handOver (hbox : setting.box = .scripted) :
    (handOver setting n task).result s = (.ok (freshId s), handed n task s) := by
  obtain ⟨box, table, limits, timeoutMs⟩ := setting
  obtain rfl : box = .scripted := hbox
  exact handOver_eq_ok_iff.mpr ⟨rfl, _, _, rfl, rfl, rfl⟩

theorem result_readTape_handed :
    (Scripted.readTape inputTape).result (d, (handed n task s).state) =
      ((inputOf task s).reread?.elim (.error (.within .parseTape (.fault .malformed))) .ok,
        (d, (handed n task s).state)) :=
  Scripted.result_readTape ((Sandbox.MemoryFiles.readBytes_removeFile _ (by decide)).trans
    (Sandbox.MemoryFiles.readBytes_writeFile _ _ _))

theorem result_readTape_of_reread? (htape : (inputOf task s).reread? = some tape) :
    (Scripted.readTape inputTape).result (d, (handed n task s).state) =
      (.ok tape, (d, (handed n task s).state)) :=
  result_readTape_handed.trans (by rw [htape]; rfl)

theorem result_call (hbox : setting.box = .scripted)
    (h : (Scripted.invoke { module, config := task.config, timeoutMs := setting.timeoutMs }).result
      (s.world.disk, s.state) = (r, (s.world.disk, state))) :
    (call setting task module).result s = (r, { s with state }) := by
  rw [call, hbox]
  exact Session.result_onState h

theorem step_of_unknown (hmodule : setting.module? task.agent = none) :
    (step setting n task).result s = (.ok (.abort none (.unknownAgent n task.agent)), s) := by
  rw [step, hmodule]
  rfl

section

variable (hbox : setting.box = .scripted)
include hbox

theorem step_of_unreadable
    (hmodule : setting.module? task.agent = some module) (htape : (inputOf task s).reread? = none) :
    (step setting n task).result s =
      (.error (.within .parseTape (.fault .malformed)), handed n task s) := by
  have hcall : (call setting task module).result (handed n task s) = _ :=
    result_call hbox (Action.result_bind_of_error
      (result_readTape_handed.trans (by rw [htape]; rfl)) _)
  rw [step, hmodule]
  dsimp only
  rw [Action.result_bind_of_ok (result_handOver hbox), Action.result_bind, hcall]

theorem step_of_silence (hmodule : setting.module? task.agent = some module)
    (htape : (inputOf task s).reread? = some tape) (hreply : s.state.reply? 0 = none) :
    (step setting n task).result s = (.error (.refusal .noReply), { handed n task s with
      state := (handed n task s).state.remembering
        { module, config := task.config, timeoutMs := setting.timeoutMs } tape }) := by
  have hcall : (call setting task module).result (handed n task s) = _ :=
    result_call hbox (Scripted.result_invoke_of_silence (result_readTape_of_reread? htape) hreply)
  rw [step, hmodule]
  dsimp only
  rw [Action.result_bind_of_ok (result_handOver hbox), Action.result_bind, hcall]

theorem result_afterCall (htape : s.state.memory.readBytes outputTape = reply.tape? traceId) :
    (afterCall setting n agent traceId (reply.ending, 0)).result s =
      (.ok (verdict setting n agent traceId reply).1,
        (verdict setting n agent traceId reply).2.foldl Session.reporting s) := by
  unfold verdict
  cases reply.ending with
  | failed reason => rfl
  | timedOut => rfl
  | finished =>
    have hread : (readOutput setting.box).result s =
        (.ok (documentOf (reply.tape? traceId)), s) := by
      rw [hbox, result_readOutput, htape]
    refine (Action.result_bind_of_ok hread _).trans ?_
    cases documentOf (reply.tape? traceId) with
    | error reason => rfl
    | ok output => exact Action.result_bind_of_ok (Session.result_reportAll _ _) _

/-- With a tape and a reply a step comes to what the reply leads to. The output tape was removed, so
there is nothing on it but what the reply wrote. -/
theorem step_of_reply (hmodule : setting.module? task.agent = some module)
    (htape : (inputOf task s).reread? = some tape) (hreply : s.state.reply? 0 = some reply) :
    (step setting n task).result s = (.ok (verdict setting n task.agent (freshId s) reply).1,
      judged setting n task module tape reply s) := by
  have hcall : (call setting task module).result (handed n task s) = _ :=
    result_call hbox (Scripted.result_invoke_of_reply (result_readTape_of_reread? htape) hreply)
  have hid : tape.traceId = freshId s := (InputTape.of_reread? htape).2.1
  have hwritten := reply.readBytes_leave tape.traceId
    ((s.state.memory.writeFile inputTape
      (Bytes.ofText (inputOf task s).toValue.compact)).readBytes_removeFile_self outputTape)
  rw [step, hmodule]
  dsimp only
  rw [Action.result_bind_of_ok (result_handOver hbox), Action.result_bind_of_ok hcall]
  exact result_afterCall hbox (hwritten.trans (by rw [hid]))

theorem step_eq_ok (h : (step setting n task).result s = (.ok result, t)) :
    (result = .abort none (.unknownAgent n task.agent) ∧ t = s) ∨
    ∃ module tape reply, s.state.reply? 0 = some reply ∧
      result = (verdict setting n task.agent (freshId s) reply).1 ∧
      t = judged setting n task module tape reply s := by
  cases hmodule : setting.module? task.agent with
  | none =>
    cases h.symm.trans (step_of_unknown hmodule)
    exact .inl ⟨rfl, rfl⟩
  | some module =>
    cases htape : (inputOf task s).reread? with
    | none => cases h.symm.trans (step_of_unreadable hbox hmodule htape)
    | some tape =>
      cases hreply : s.state.reply? 0 with
      | none => cases h.symm.trans (step_of_silence hbox hmodule htape hreply)
      | some reply =>
        cases h.symm.trans (step_of_reply hbox hmodule htape hreply)
        exact .inr ⟨module, tape, reply, rfl, rfl, rfl⟩

end

end Step

/-! ### The session after a step -/

section Judged

variable (setting : Setting Scripted) (n : UInt32) (task : Task) (module : String)
  (tape : InputTape) (reply : Reply) (s : Session Scripted)

theorem state_judged : (judged setting n task module tape reply s).state =
    (handed n task s).state.answered
      { module, config := task.config, timeoutMs := setting.timeoutMs } tape reply :=
  Session.state_foldl_reporting _ _

theorem calls_judged : (judged setting n task module tape reply s).state.calls =
    s.state.calls ++ [{ module, tape, config := task.config }] := by
  rw [state_judged]
  rfl

theorem reply?_judged (k : Nat) :
    (judged setting n task module tape reply s).state.reply? k = s.state.reply? (k + 1) := by
  rw [state_judged]
  exact Scripted.reply?_afterReply s.state k

theorem supply_judged (k : Nat) :
    (judged setting n task module tape reply s).world.supply
        ((judged setting n task module tape reply s).world.drawn + k) =
      s.world.supply (s.world.drawn + (k + 1)) := by
  obtain ⟨hsupply, hdrawn⟩ := Session.supply_foldl_reporting
    (verdict setting n task.agent (freshId s) reply).2 { handed n task s with
      state := (handed n task s).state.answered
        { module, config := task.config, timeoutMs := setting.timeoutMs } tape reply }
  rw [judged, hsupply, hdrawn]
  change s.world.supply (s.world.drawn + 1 + k) = _
  rw [Nat.add_assoc, Nat.add_comm 1 k]

end Judged

end AgentChain.Engine
