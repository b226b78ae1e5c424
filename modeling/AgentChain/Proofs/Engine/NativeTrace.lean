import AgentChain.Proofs.Engine.Known
import AgentChain.Proofs.Engine.NativeStep
import AgentChain.Proofs.FileTree.Absent

/-!
# Trace ids in a native sandbox

A native sandbox reads the trace id of a step from the input tape and writes it on the output tape
with the answer of the agent. It comes back from there whatever the answer holds, so no run is given
up for a foreign trace id. An agent that fails or takes too long leaves nothing: the output tape of the
step before was removed, and nothing stands in its place unless an event log is kept there.
-/

namespace AgentChain.Engine

open Sandbox (Native)
open Workflow (AbortReason Machine Record)
open AgentChain.Action
open AgentChain.Path (under)

variable {setting : Setting Native} {n k : UInt32} {task task' : Task} {s s' t u : Session Native}

/-! ### The output tape -/

def outputPath (s : Session Native) : String :=
  under s.state.root ["tmp", "output_tape.json"]

/-- There is no output tape: nothing stands under its path, unless an open event log is kept there. -/
def Cleared (s : Session Native) : Prop :=
  s.world.disk.exists? (outputPath s) = false ∨
    ∃ log ∈ s.world.logs, s.world.disk.Meets log (outputPath s)

theorem Cleared.reporting (h : Cleared s) (hd : s.world.disk.Whole) (e : Event) :
    Cleared (s.reporting e) := by
  refine (World.moves_reporting (frame_keeps fun d : Disk => d.Whole ∧
    (d.exists? (outputPath s) = false ∨ ∃ log ∈ s.world.logs, d.Meets log (outputPath s))) s.world e
    (fun path hpath d d' happend ⟨hd, h⟩ => ⟨hd.append happend, ?_⟩) ⟨hd, h⟩).2
  rcases h with hnone | ⟨log, hlog, hmeets⟩
  · cases hexists : d'.exists? (outputPath s) with
    | false => exact .inl rfl
    | true => exact .inr ⟨path, hpath, hd.meets_of_append hnone happend hexists⟩
  · exact .inr ⟨log, hlog, hmeets.append hd happend⟩

theorem exists?_of_removeFile {s t names path} (hnames : Native.Names names path) (hd : s.1.Whole)
    (h : (Native.removeFile path).result s = (.ok (), t)) :
    t.1.exists? (under s.2.root names) = false := by
  obtain ⟨hres, -⟩ := Native.result_atPath_eq_ok hnames h
  have hremove := OnDisk.result_change_eq_ok.1 (result_within_eq_ok.1 hres)
  split at hremove
  · next hmissing =>
    rw [← Except.ok.inj hremove]
    exact Disk.exists?_of_removeFile_notFound hmissing
  · exact hd.sound.exists?_removeFile hremove

theorem cleared_of_handOver (hbox : setting.box = .native) (hd : s.world.disk.Whole)
    {traceId} (h : (handOver setting n task).result s = (.ok traceId, t)) : Cleared t := by
  obtain ⟨-, written, cleared, hwrite, hclear, rfl⟩ := handOver_eq_ok_iff.1 h
  rw [hbox] at hwrite hclear
  obtain ⟨hwrite, -⟩ := Session.of_result_onState hwrite
  obtain ⟨hclear, -⟩ := Session.of_result_onState hclear
  obtain ⟨-, hwhole, -⟩ := Native.writeFile_eq_ok Native.names_inputTape hd hwrite
  obtain ⟨hstate, hwhole', -⟩ := Native.removeFile_eq_ok Native.names_outputTape hwhole hclear
  have hgone := exists?_of_removeFile Native.names_outputTape hwhole hclear
  rw [← show cleared.state = written.state from hstate] at hgone
  exact Cleared.reporting (.inl hgone) hwhole' _

/-! ### Steps that are not answered -/

/-- The module of a step was called, and the agent failed or took too long. -/
def Unanswered (setting : Setting Native) (n : UInt32) (task : Task) (s : Session Native) : Prop :=
  ∃ module traceId called ending elapsedMs returned, setting.module? task.agent = some module ∧
    (handOver setting n task).result s = (.ok traceId, called) ∧
    (call setting task module).result called = (.ok (ending, elapsedMs), returned) ∧
    ending ≠ .finished

theorem eq_of_call (hbox : setting.box = .native)
    (h : (call setting task module).result s = (.ok (ending, elapsedMs), t))
    (hending : ending ≠ .finished) : t = s := by
  rw [call, hbox] at h
  obtain ⟨hcall, hworld⟩ := Session.of_result_onState h
  have hsame : (t.world.disk, t.state) = (s.world.disk, s.state) := by
    obtain ⟨_, _, _, -, -, -, ⟨-, -, hsame⟩ | ⟨_, -, -, -, hsame⟩ | ⟨_, -, -, hfinished, -⟩⟩ :=
      Native.invoke_cases Native.names_inputTape hcall
    · exact hsame
    · exact hsame
    · exact absurd hfinished hending
  obtain ⟨hdisk, hstate⟩ := Prod.mk.inj hsame
  rw [hdisk] at hworld
  cases s
  cases t
  exact Session.mk.injEq .. ▸ ⟨hworld, hstate⟩

theorem Unanswered.cleared (h : Unanswered setting n task s) (hbox : setting.box = .native)
    (hd : s.world.disk.Whole) : ∃ record reason t,
      (step setting n task).result s = (.ok (.abort (some record) reason), t) ∧ Cleared t := by
  obtain ⟨module, traceId, called, ending, elapsedMs, returned, hmodule, hhanded, hcall, hending⟩ := h
  obtain rfl := eq_of_call hbox hcall hending
  have hcleared := cleared_of_handOver hbox hd hhanded
  rw [step, hmodule]
  simp only
  rw [result_bind_of_ok hhanded, result_bind_of_ok hcall]
  cases ending with
  | finished => exact absurd rfl hending
  | failed reason => exact ⟨_, _, returned, rfl, hcleared⟩
  | timedOut => exact ⟨_, _, returned, rfl, hcleared⟩

/-! ### Runs -/

theorem ruling_ne_traceMismatch (setting : Setting Native) (agent traceId expected : String)
    (elapsedMs : UInt64) (answer : Except Agent.Fault Agent.Output) (record : Option Record)
    (actual : Option String) : ruling setting n agent traceId elapsedMs answer ≠
      .abort record (.traceMismatch k expected actual) := by
  intro h
  cases answer with
  | error fault => cases h
  | ok output =>
    obtain ⟨_, _, hruling⟩ | ⟨_, _, _, _, -, -, hruling⟩ |
      ⟨_, _, _, _, -, -, hruling | ⟨-, hruling⟩⟩ :=
      ruling_cases setting n agent traceId elapsedMs output
    all_goals cases hruling.symm.trans h

/-- Everything that matters of a step in a native sandbox, for a known agent or not: the session can
be resumed, and the step does not end for a foreign trace id. -/
theorem resumes_of_step (hbox : setting.box = .native) (hd : s.world.disk.Whole) {result}
    (h : (step setting n task).result s = (.ok result, t)) :
    Resumes s t ∧ ∀ record expected actual,
      result ≠ .abort record (.traceMismatch k expected actual) := by
  cases hmodule : setting.module? task.agent with
  | none =>
    rw [step, hmodule] at h
    cases h
    exact ⟨.refl hd, fun _ _ _ heq => by cases heq⟩
  | some module =>
    obtain ⟨hresumes, program, tape, elapsedMs, -, -, ⟨-, rfl⟩ | ⟨-, rfl⟩⟩ :=
      native_step_outcome hbox hd hmodule h
    · exact ⟨hresumes, fun _ _ _ heq => by cases heq⟩
    · exact ⟨hresumes, fun _ _ _ => ruling_ne_traceMismatch _ _ _ _ _ _ _ _⟩

theorem Comes.resumes {m} (h : Comes setting m task s n task' s')
    (hbox : setting.box = .native) (hd : s.world.disk.Whole) : Resumes s s' := by
  induction h with
  | here => exact .refl hd
  | later hn hstep rest ih =>
    have hresumes := (resumes_of_step (k := 0) hbox hd hstep).1
    exact hresumes.trans (ih hresumes.whole)

/-- A run in a native sandbox is never given up for a foreign trace id. Whenever it comes to a step
that ends because the agent failed or took too long, there is no output tape after the step. -/
theorem native_run_traces (hbox : setting.box = .native) (hd : s.world.disk.Whole)
    (rootAgent : String) (input config : Json.Value) :
    (∀ r u, (run setting rootAgent input config).result s = (.ok r, u) →
      ∀ n expected actual, r.state ≠ .aborted (.traceMismatch n expected actual)) ∧
    ∀ n task v, Comes setting (.started setting.limits) ⟨rootAgent, input, config⟩
        (s.reporting (startEvent setting rootAgent)) n task v →
      Unanswered setting n task v → ∃ record reason t,
        (step setting n task).result v = (.ok (.abort (some record) reason), t) ∧ Cleared t := by
  have hstart := (Resumes.refl hd).reporting (startEvent setting rootAgent)
  refine ⟨fun r u hrun n expected actual hstate => ?_, fun n task v hcomes hunanswered =>
    hunanswered.cleared hbox (hcomes.resumes hbox hstart.whole).whole⟩
  obtain ⟨visits, m, v, rfl, htrail, -⟩ := run_trail hrun
  have hvisits : visits ≠ [] := by
    rintro rfl
    cases htrail with
    | ended _ _ hcurrent => cases hcurrent
  obtain ⟨last, -, -, hrunning, rfl⟩ :=
    htrail.exists_last (Machine.sound_started setting.limits) hvisits
  have hmem := List.getLast_mem hvisits
  obtain ⟨record, hresult⟩ | hlimit | hlimit := abort_of_feed hrunning hstate
  · have hwhole := ((htrail.comes hmem).resumes hbox hstart.whole).whole
    exact (resumes_of_step hbox hwhole (htrail.step_of_mem hmem)).2 record expected actual hresult
  · cases hlimit
  · cases hlimit

/-! ### An agent that takes too long -/

def hastySetting : Setting Native where
  box := .native
  table := [("a", "a.main")]
  limits := { maxSteps := 3, stagnationThreshold := 2 }
  timeoutMs := some 5

/-- A sandbox with an agent that sleeps for nine milliseconds; an event log is open. -/
def sleepySession : Session Native where
  world := {
    disk := .empty, reported := [], logs := ["/events"], clock := ⟨0⟩
    supply := fun k => String.ofList (List.replicate (k + 1) 'x'), drawn := 0 }
  state := {
    root := "/s", modules := ⟨[("a.main", ⟨fun _ _ => ⟨[.sleep 9], .ok (.complete .null)⟩⟩)]⟩
    installer := "", installed := [], host := some {} }

theorem whole_sleepy : sleepySession.world.disk.Whole :=
  ⟨Disk.sound_of_fits (by decide), Disk.twinsAgree_of_nil rfl, List.forall_mem_nil _⟩

theorem sleepy_ends : ((run hastySetting "a" .null .null).result sleepySession).1.toOption.map
    (fun r => (r.status, r.history.length)) = some ("aborted", 1) := by
  decide +kernel

theorem unanswered_sleepy : Unanswered hastySetting 1 ⟨"a", .null, .null⟩
    (sleepySession.reporting (startEvent hastySetting "a")) := by
  have hends : ((handOver hastySetting 1 ⟨"a", .null, .null⟩ >>= fun _ =>
      call hastySetting ⟨"a", .null, .null⟩ "a.main").result
        (sleepySession.reporting (startEvent hastySetting "a"))).1.toOption.map
      (fun answer => decide (answer.1 = .timedOut)) = some true := by
    decide +kernel
  obtain ⟨⟨ending, elapsedMs⟩, returned, hres, hending⟩ := exists_of_map_toOption hends
  obtain ⟨traceId, called, hhanded, hcall⟩ := result_bind_eq_ok.1 hres
  have htimedOut : ending = .timedOut := of_decide_eq_true hending
  exact ⟨"a.main", traceId, called, ending, elapsedMs, returned, rfl, hhanded, hcall,
    by simp [htimedOut]⟩

/-- A run with an agent that takes too long is given up, and not for a trace id; there is no output
tape after the step. -/
theorem native_run_traces_sleepy :
    (∃ r u, (run hastySetting "a" .null .null).result sleepySession = (.ok r, u) ∧
      r.status = "aborted" ∧ r.history.length = 1 ∧
      ∀ n expected actual, r.state ≠ .aborted (.traceMismatch n expected actual)) ∧
    ∃ record reason t, (step hastySetting 1 ⟨"a", .null, .null⟩).result
        (sleepySession.reporting (startEvent hastySetting "a")) =
          (.ok (.abort (some record) reason), t) ∧ Cleared t := by
  have hbox : hastySetting.box = .native := rfl
  obtain ⟨htraces, htapes⟩ := native_run_traces hbox whole_sleepy "a" .null .null
  obtain ⟨r, u, hrun, hends⟩ := exists_of_map_toOption sleepy_ends
  exact ⟨⟨r, u, hrun, congrArg Prod.fst hends, congrArg Prod.snd hends, htraces r u hrun⟩,
    htapes 1 _ _ (.here _ _ rfl) unanswered_sleepy⟩

end AgentChain.Engine
