import AgentChain.Proofs.Engine.ScriptedStep
import AgentChain.Proofs.Engine.Soundness

/-!
# Runs start fresh

What is left in the files of a sandbox cannot influence a run. Two runs in scripted sandboxes that
differ in their files only come to the same: a step writes the input tape and removes the output
tape before it calls a module, so every file that it reads is one of its own. Hence an agent that
writes no tape never passes off an earlier answer as its own. A run touches no file but the tapes.
-/

namespace AgentChain

open Sandbox (Scripted MemoryFiles)

namespace Session

def withFiles (s : Session Scripted) (memory : MemoryFiles) : Session Scripted :=
  { s with state := { s.state with memory } }

theorem foldl_reporting_withFiles (events : List Event) (s : Session Scripted)
    (memory : MemoryFiles) :
    events.foldl reporting (s.withFiles memory) = (events.foldl reporting s).withFiles memory := by
  induction events generalizing s with
  | nil => rfl
  | cons e events ih => exact ih (s.reporting e)

end Session

namespace Engine

open Workflow (Limits Machine)

def NoTape (path : String) : Prop :=
  path ≠ Sandbox.inputTape ∧ path ≠ Sandbox.outputTape

section Files

variable {setting : Setting Scripted} {n : UInt32} {task : Task} {s : Session Scripted}
  {path : String}

/-! ### Other files -/

section

variable (hbox : setting.box = .scripted)
include hbox

theorem step_withFiles (memory : MemoryFiles) :
    ∃ left, (step setting n task).result (s.withFiles memory) =
      (((step setting n task).result s).1, ((step setting n task).result s).2.withFiles left) := by
  cases hmodule : setting.module? task.agent with
  | none =>
    rw [step_of_unknown hmodule, step_of_unknown hmodule]
    exact ⟨memory, rfl⟩
  | some module =>
    cases htape : (inputOf task s).reread? with
    | none =>
      have htape' : (inputOf task (s.withFiles memory)).reread? = none := htape
      rw [step_of_unreadable hbox hmodule htape, step_of_unreadable hbox hmodule htape']
      exact ⟨(handed n task (s.withFiles memory)).state.memory, rfl⟩
    | some tape =>
      have htape' : (inputOf task (s.withFiles memory)).reread? = some tape := htape
      cases hreply : s.state.reply? 0 with
      | none =>
        have hreply' : (s.withFiles memory).state.reply? 0 = none := hreply
        rw [step_of_silence hbox hmodule htape hreply, step_of_silence hbox hmodule htape' hreply']
        exact ⟨(handed n task (s.withFiles memory)).state.memory, rfl⟩
      | some reply =>
        have hreply' : (s.withFiles memory).state.reply? 0 = some reply := hreply
        rw [step_of_reply hbox hmodule htape hreply, step_of_reply hbox hmodule htape' hreply']
        refine ⟨reply.leave Sandbox.outputTape tape.traceId
          (handed n task (s.withFiles memory)).state.memory, Prod.ext rfl ?_⟩
        dsimp only
        rw [judged, judged, ← Session.foldl_reporting_withFiles]
        rfl

theorem readBytes_step (hpath : NoTape path) :
    ((step setting n task).result s).2.state.memory.readBytes path =
      s.state.memory.readBytes path := by
  have hhanded : (handed n task s).state.memory.readBytes path = s.state.memory.readBytes path :=
    (MemoryFiles.readBytes_removeFile _ hpath.2).trans
      (MemoryFiles.readBytes_writeFile_of_ne _ hpath.1 _)
  cases hmodule : setting.module? task.agent with
  | none => rw [step_of_unknown hmodule]
  | some module =>
    cases htape : (inputOf task s).reread? with
    | none =>
      rw [step_of_unreadable hbox hmodule htape]
      exact hhanded
    | some tape =>
      cases hreply : s.state.reply? 0 with
      | none =>
        rw [step_of_silence hbox hmodule htape hreply]
        exact hhanded
      | some reply =>
        rw [step_of_reply hbox hmodule htape hreply]
        dsimp only
        rw [state_judged]
        exact (reply.readBytes_leave_of_ne hpath.2 _ _).trans hhanded

theorem loop_withFiles (fuel : Nat) (m : Machine) (task : Task)
    (s : Session Scripted) (memory : MemoryFiles) :
    ∃ left, (loop setting fuel m task).result (s.withFiles memory) =
      (((loop setting fuel m task).result s).1,
        ((loop setting fuel m task).result s).2.withFiles left) := by
  induction fuel generalizing m task s memory with
  | zero => exact ⟨memory, rfl⟩
  | succ fuel ih =>
    cases hn : m.currentStep? with
    | none =>
      rw [loop, hn]
      exact ⟨memory, rfl⟩
    | some n =>
      obtain ⟨left, hleft⟩ : ∃ left, (step setting n task).result (s.withFiles memory) = _ :=
        step_withFiles hbox memory
      rw [loop, hn]
      dsimp only
      rw [Action.result_bind, Action.result_bind, hleft]
      rcases (step setting n task).result s with ⟨f | result, t⟩
      · exact ⟨left, rfl⟩
      · exact ih (result.feed m) (result.next task) t left

theorem readBytes_loop (hpath : NoTape path)
    (fuel : Nat) (m : Machine) (task : Task) (s : Session Scripted) :
    ((loop setting fuel m task).result s).2.state.memory.readBytes path =
      s.state.memory.readBytes path := by
  induction fuel generalizing m task s with
  | zero => rfl
  | succ fuel ih =>
    cases hn : m.currentStep? with
    | none =>
      rw [loop, hn]
      rfl
    | some n =>
      have hfirst : ((step setting n task).result s).2.state.memory.readBytes path = _ :=
        readBytes_step hbox hpath
      rw [loop, hn]
      dsimp only
      rw [Action.result_bind]
      rcases hstep : (step setting n task).result s with ⟨f | result, t⟩ <;> rw [hstep] at hfirst
      · exact hfirst
      · exact (ih (result.feed m) (result.next task) t).trans hfirst

theorem run_withFiles (rootAgent : String)
    (input config : Json.Value) (s : Session Scripted) (memory : MemoryFiles) :
    ∃ left, (run setting rootAgent input config).result (s.withFiles memory) =
      (((run setting rootAgent input config).result s).1,
        ((run setting rootAgent input config).result s).2.withFiles left) := by
  obtain ⟨left, hleft⟩ := loop_withFiles hbox setting.limits.stepBound (.started setting.limits)
    { agent := rootAgent, input, config } (s.reporting (startEvent setting rootAgent)) memory
  have hstart : (s.withFiles memory).reporting (startEvent setting rootAgent) =
      (s.reporting (startEvent setting rootAgent)).withFiles memory := rfl
  refine ⟨left, ?_⟩
  rw [result_run, result_run, hstart, hleft]
  rcases (loop setting setting.limits.stepBound (.started setting.limits)
    { agent := rootAgent, input, config }).result
      (s.reporting (startEvent setting rootAgent)) with ⟨f | m, t⟩
  · rfl
  · exact Prod.ext rfl (Session.foldl_reporting_withFiles _ _ _)

theorem readBytes_run (hpath : NoTape path)
    (rootAgent : String) (input config : Json.Value) (s : Session Scripted) :
    ((run setting rootAgent input config).result s).2.state.memory.readBytes path =
      s.state.memory.readBytes path := by
  have hsteps := readBytes_loop hbox hpath setting.limits.stepBound (.started setting.limits)
    { agent := rootAgent, input, config } (s.reporting (startEvent setting rootAgent))
  rw [result_run]
  rcases hloop : (loop setting setting.limits.stepBound (.started setting.limits)
    { agent := rootAgent, input, config }).result
      (s.reporting (startEvent setting rootAgent)) with ⟨f | m, t⟩ <;> rw [hloop] at hsteps
  · exact hsteps
  · dsimp only
    rw [Session.state_foldl_reporting]
    exact hsteps

end

end Files

/-! ### Agents that write no tape -/

namespace Trail

variable {setting : Setting Scripted} {m m' : Machine} {task : Task} {s u : Session Scripted}
  {visits : List (Visit Scripted)}

theorem reply?_before (h : Trail setting m task s visits m' u) (hbox : setting.box = .scripted)
    (hk : k < visits.length) (j : Nat) :
    visits[k].before.state.reply? j = s.state.reply? (j + k) := by
  induction h generalizing k j with
  | ended => simp at hk
  | @step m _ n task s t u result visits hn hstep rest ih =>
    cases k with
    | zero => rfl
    | succ k =>
      -- there is a next visit, so the step was pending and has taken a reply
      have hlater : k < visits.length := Nat.lt_of_succ_lt_succ hk
      obtain ⟨-, record, progress, hpending⟩ := (Trail.step hn hstep rest).pending_of_lt
        (Nat.zero_lt_of_lt hk) (by simpa using Nat.zero_lt_of_lt hlater)
      obtain ⟨habort, -⟩ | ⟨module, tape, reply, -, -, rfl⟩ := step_eq_ok hbox hstep
      · cases habort.symm.trans hpending
      · exact (ih hlater j).trans (reply?_judged ..)

theorem aborted_of_silent (h : Trail setting m task s visits m' u) (hbox : setting.box = .scripted)
    (hm : m.Sound) (hk : k < visits.length)
    (hrecord : visits[k].result.record? = some record) (hreply : s.state.reply? k = some .noTape) :
    k + 1 = visits.length ∧ m'.state =
      .aborted (.invalidResponse visits[k].number "agent wrote no output tape") := by
  have hbefore : visits[k].before.state.reply? 0 = some .noTape := by
    rw [h.reply?_before hbox hk, Nat.zero_add, hreply]
  obtain ⟨habort, -⟩ | ⟨module, tape, reply, hsome, hverdict, -⟩ :=
    step_eq_ok hbox (h.step_of_mem (List.getElem_mem hk))
  · simp [habort, Result.record?] at hrecord
  · cases hbefore.symm.trans hsome
    exact h.aborted_of_abort hm hk hverdict

theorem exists_record (h : Trail setting m task s visits m' u)
    (hk : k < (visits.filterMap (·.result.record?)).length) :
    ∃ (hvisit : k < visits.length) (record : Workflow.Record),
      visits[k].result.record? = some record := by
  have hvisit : k < visits.length := Nat.lt_of_lt_of_le hk (List.length_filterMap_le _ _)
  refine ⟨hvisit, ?_⟩
  by_cases hnext : k + 1 < visits.length
  · obtain ⟨-, record, progress, hpending⟩ := h.pending_of_lt hvisit hnext
    exact ⟨record, by rw [hpending]; rfl⟩
  · by_contra hnone
    have hnone : visits[k].result.record? = none :=
      Option.eq_none_iff_forall_ne_some.mpr (not_exists.mp hnone)
    have hsplit : visits = visits.take k ++ [visits[k]] := by
      rw [List.take_append_getElem, List.take_of_length_le (by omega)]
    have hle := List.length_filterMap_le (fun v : Visit Scripted => v.result.record?)
      (visits.take k)
    rw [hsplit, List.filterMap_append] at hk
    simp only [List.filterMap_cons, List.filterMap_nil, hnone, List.append_nil] at hk
    rw [List.length_take] at hle
    omega

end Trail

/-- Runs start fresh. Other files in the sandbox make no difference to the result of a run, to its
events, its calls or anything else but the files themselves; a run leaves all files but the tapes as
they were; and a reply without a tape ends the run at its step. -/
theorem scripted_run_fresh (table : Agent.Table) (limits : Limits) (timeoutMs : Option Nat)
    (rootAgent : String) (input config : Json.Value) (s : Session Scripted) :
    let act := run { box := .scripted, table, limits, timeoutMs } rootAgent input config
    (∀ memory, ∃ left, act.result (s.withFiles memory) =
      ((act.result s).1, (act.result s).2.withFiles left)) ∧
    (∀ path, NoTape path →
      (act.result s).2.state.memory.readBytes path = s.state.memory.readBytes path) ∧
    ∀ r, (act.result s).1 = .ok r → ∀ k < r.history.length, s.state.reply? k = some .noTape →
      k + 1 = r.history.length ∧ ∃ n : UInt32, n.toNat = k + 1 ∧
        r.state = .aborted (.invalidResponse n "agent wrote no output tape") := by
  intro act
  refine ⟨run_withFiles rfl rootAgent input config s,
    fun path hpath => readBytes_run rfl hpath rootAgent input config s, fun r hr k hk hreply => ?_⟩
  obtain ⟨visits, m, t, rfl, htrail, -⟩ := run_trail (Prod.ext hr rfl : act.result s = (.ok r, _))
  have hhistory : m.history = visits.filterMap (·.result.record?) := htrail.history_eq
  obtain ⟨hvisit, record, hrecord⟩ := htrail.exists_record (hhistory ▸ hk)
  obtain ⟨hlast, hstate⟩ :=
    htrail.aborted_of_silent rfl (Machine.sound_started _) hvisit hrecord hreply
  have hle := List.length_filterMap_le (fun v : Visit Scripted => v.result.record?) visits
  rw [← hhistory] at hle
  refine ⟨by dsimp only at hk ⊢; omega, visits[k].number, ?_, hstate⟩
  rw [htrail.toNat_number rfl hvisit]
  exact Nat.add_comm 1 k

end Engine

end AgentChain
