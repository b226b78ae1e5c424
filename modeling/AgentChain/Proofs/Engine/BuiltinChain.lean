import AgentChain.Proofs.Engine.NativeStep
import AgentChain.Proofs.Engine.Records

/-!
# Runs of the agents of this library

A run starts with the dot product, which may delegate to any agent that its configuration names. The
payload that it delegates has neither a vector nor a processed result, so a second dot product
fails, and a multiplier completes or hands back. It hands back to the first agent only, and what it
hands back has a processed result, with which the first agent completes. So the agents cannot keep
each other busy, whatever the input and the configuration are.
-/

namespace AgentChain

open Json (Value)
open Agent

namespace Engine

open Sandbox (Native)
open Agent (Output Program)
open Workflow (AbortReason Machine Record Status State)

variable {setting : Setting Native} {n : UInt32} {agent traceId : String} {elapsedMs : UInt64}

/-- Results that end a run with a value, for an answer that is not usable, or for an agent that is
not known. -/
inductive Settles : Result → Prop
  | complete (record : Record) (value : Value) : Settles (.complete record value)
  | invalid (record : Option Record) (n : UInt32) (message : String) :
    Settles (.abort record (.invalidResponse n message))
  | unknown (record : Option Record) (n : UInt32) (agent : String) :
    Settles (.abort record (.unknownAgent n agent))

theorem settles_complete (result : Value) :
    Settles (ruling setting n agent traceId elapsedMs (.ok (.complete result))) := by
  obtain ⟨record, message, hruling⟩ | ⟨v, value, progress, record, -, -, hruling⟩ |
      ⟨v, progress, next, record, hreturns, hgives, -⟩ :=
    ruling_cases setting n agent traceId elapsedMs (.complete result)
  · exact hruling ▸ .invalid _ _ _
  · exact hruling ▸ .complete _ _
  · obtain _ | ⟨hpending, -, -, -⟩ := hgives
    have hstatus : (Value.string "complete").Returns (.string "pending") :=
      hreturns.of_member? (by simp) rfl hpending
    simpa using hstatus.eq_string

theorem completes_of_depth_lt (hid : traceId ≠ "") (hdepth : result.depth < Json.depthLimit) :
    ∃ record value, ruling setting n agent traceId elapsedMs (.ok (.complete result)) =
      .complete record value := by
  have hshallow : ((Output.complete result).toTape traceId).depth ≤ Json.depthLimit := by
    simpa [Output.toTape, Value.depth, Value.membersDepth] using hdepth
  obtain ⟨v, hread, hreturns⟩ := Value.exists_read?_compact hshallow
  obtain ⟨id, hmember, hstring⟩ : ∃ u, v.member? "trace_id" = some u ∧
      (Value.string traceId).Returns u := hreturns.exists_member? (by simp) rfl
  obtain rfl := hstring.eq_string
  obtain ⟨status, hstatus, hcomplete⟩ : ∃ u, v.member? "status" = some u ∧
      (Value.string "complete").Returns u := hreturns.exists_member? (by simp) rfl
  obtain rfl := hcomplete.eq_string
  obtain ⟨value, hvalue, -⟩ : ∃ u, v.member? "result" = some u ∧ result.Returns u :=
    hreturns.exists_member? (by simp) rfl
  have hprogress : v.member? "progress" = none := hreturns.member?_eq_none (by simp) rfl
  have haction : v.member? "action" = none := hreturns.member?_eq_none (by simp) rfl
  have hformed : OutputTape.WellFormed v := {
    object := Value.isObject_of_member? hmember
    traceId := ⟨traceId, hmember, hid⟩
    status := .inl hstatus
    progress := fun p hp => by simp [hprogress] at hp
    action := fun a ha => by simp [haction] at ha
    complete := fun _ => ⟨value, hvalue⟩
    pending := fun h => by simp [hstatus] at h }
  have hanswer : OutputTape.interpret v = .ok (.complete value none) :=
    OutputTape.interpret_eq_ok_iff.2 ⟨hformed, .complete hstatus hvalue (.absent hprogress)⟩
  have hdocument : documentOf (some (Bytes.ofText
      ((Output.complete result).toTape traceId).compact)) = .ok v := by
    simp only [documentOf, Bytes.text?_ofText, Option.bind_some, hread]
  have hcheck : OutputTape.checkTrace v traceId = .ok () :=
    if_pos (Output.traceId?_of_returns hreturns)
  exact ⟨_, value, by simp only [ruling, hdocument, judge, hcheck, hanswer]; rfl⟩

/-- An answer that delegates ends the run, or names its agent as the next one with what comes back
of its payload. A progress that is not finite is refused. -/
theorem settles_or_delegate (progress : Float) (name : String) (input : Value) :
    Settles (ruling setting n agent traceId elapsedMs (.ok (.delegate progress name input none))) ∨
    ∃ record value next, ruling setting n agent traceId elapsedMs
        (.ok (.delegate progress name input none)) = .pending record value next ∧
      (setting.module? next.agent).isSome ∧ next.agent = name ∧ input.Returns next.input ∧
      ∃ number, Value.ofFloat progress = .number number := by
  obtain ⟨record, message, hruling⟩ | ⟨v, value, reported, record, hreturns, hgives, -⟩ |
      ⟨v, value, next, record, hreturns, hgives, hruling⟩ :=
    ruling_cases setting n agent traceId elapsedMs (.delegate progress name input none)
  · exact .inl (hruling ▸ .invalid _ _ _)
  · obtain ⟨hcomplete, -, -⟩ | _ := hgives
    have hstatus : (Value.string "pending").Returns (.string "complete") :=
      hreturns.of_member? (by simp) rfl hcomplete
    simpa using hstatus.eq_string
  · obtain hruling | ⟨hknown, hruling⟩ := hruling
    · exact .inl (hruling ▸ .unknown _ _ _)
    · refine .inr ⟨record, value, next, hruling, hknown, ?_⟩
      obtain _ | @⟨_, _, action, -, hprogress, haction, hnext⟩ := hgives
      obtain ⟨payload, hpayload, hnames⟩ := hnext.payload
      have hreturnsPayload : Value.Returns _ payload :=
        (hreturns.of_member? (by simp) rfl haction).of_member? (by simp) rfl hpayload
      have hname : (Value.string name).Returns (.string next.agent) :=
        hreturnsPayload.of_member? (by simp) rfl hnames.agent
      refine ⟨Value.string.inj hname.eq_string,
        hreturnsPayload.of_member? (by simp) rfl hnames.input, ?_⟩
      obtain ⟨number, hnumber⟩ : ∃ number, v.member? "progress" = some (.number number) := by
        cases hprogress with
        | present hnumber => exact ⟨_, hnumber⟩
      have hfinite : (Value.ofFloat progress).Returns (.number number) :=
        hreturns.of_member? (by simp) rfl hnumber
      unfold Value.ofFloat at hfinite ⊢
      cases hfloat : Json.Number.ofFloat? progress with
      | none =>
        rw [hfloat] at hfinite
        cases hfinite.eq_null
      | some number => exact ⟨number, rfl⟩

end Engine

/-! ### The agents -/

namespace Agent

/-- A payload that was delegated: it has neither a vector nor a processed result, and asks for its
result to be handed back to the first agent or not at all. -/
structure Delegated (v : Value) : Prop where
  object : ∃ members, v = .object members ∧ (members.map (·.1)).Nodup
  noVector : v.member? "vector" = none
  noResult : v.member? "processed_result" = none
  returnTo : v.member? "return_to" = none ∨ v.member? "return_to" = some (.string rootName)

/-- A payload with a number as its processed result. -/
structure Processed (v : Value) : Prop where
  object : ∃ members, v = .object members ∧ (members.map (·.1)).Nodup
  result : ∃ number, v.member? "processed_result" = some (.number number)

theorem exists_members_of_returns {v w : Value} (h : v.Returns w) (hv : v.isObject) :
    ∃ members, w = .object members ∧ (members.map (·.1)).Nodup := by
  obtain ⟨members, rfl⟩ := h.eq_object hv
  exact ⟨members, rfl, h.sorted.1.nodup_names⟩

theorem Delegated.returns {v w : Value} (hv : Delegated v) (h : v.Returns w) : Delegated w := by
  obtain ⟨members, rfl, hnames⟩ := hv.object
  refine ⟨exists_members_of_returns h rfl, h.member?_eq_none hnames hv.noVector,
    h.member?_eq_none hnames hv.noResult,
    hv.returnTo.imp (h.member?_eq_none hnames) fun hroot => ?_⟩
  obtain ⟨u, hu, hreturns⟩ := h.exists_member? hnames hroot
  rw [hu, hreturns.eq_string]

theorem Processed.returns {v w : Value} (hv : Processed v) (h : v.Returns w) : Processed w := by
  obtain ⟨members, rfl, hnames⟩ := hv.object
  obtain ⟨number, hnumber⟩ := hv.result
  obtain ⟨u, hu, hreturns⟩ := h.exists_member? hnames hnumber
  obtain ⟨number', rfl⟩ := hreturns.exists_number
  exact ⟨exists_members_of_returns h rfl, number', hu⟩

namespace DotProduct

variable (input config : Value)

theorem delegated_delegated (product : Float) : Delegated (delegated input config product) := by
  unfold delegated
  cases collects config with
  | false => exact ⟨⟨_, rfl, by simp⟩, rfl, rfl, .inl rfl⟩
  | true => exact ⟨⟨_, rfl, by simp⟩, rfl, rfl, .inr rfl⟩

theorem answer_cases :
    (∃ fault, (program.run input config).answer = .error fault) ∨
    (∃ result, (program.run input config).answer = .ok (.complete result)) ∨
    ∃ product name, (program.run input config).answer =
      .ok (.delegate product name (delegated input config product) none) := by
  dsimp only [program]
  split
  · exact .inr (.inl ⟨_, rfl⟩)
  · dsimp only [turnOnVector]
    split
    · exact .inl ⟨_, rfl⟩
    · split
      · dsimp only [answer]
        split
        · exact .inr (.inr ⟨_, _, rfl⟩)
        · exact .inr (.inl ⟨_, rfl⟩)
      · exact .inl ⟨_, rfl⟩

variable {input}

theorem answer_of_delegated (h : Delegated input) :
    (program.run input config).answer = .error .noVector := by
  have hnumbers : numbers? input "vector" = none := by rw [numbers?, h.noVector]; rfl
  simp only [program, h.noResult, turnOnVector, hnumbers]

end DotProduct

theorem Multiplier.answer_cases (config : Value) (h : Delegated input) (hsorted : input.Sorted) :
    (∃ result, (program.run input config).answer = .ok (.complete result)) ∨
    ∃ product payload, (program.run input config).answer =
        .ok (.delegate product rootName payload none) ∧
      (∃ members, payload = .object members ∧ (members.map (·.1)).Nodup) ∧
      payload.member? "processed_result" = some (.ofFloat product) := by
  dsimp only [program, answer]
  obtain hnone | hroot := h.returnTo
  · rw [hnone]
    exact .inl ⟨_, rfl⟩
  · rw [hroot]
    refine .inr ⟨_, _, rfl, ⟨_, rfl, ?_⟩, Json.lookup?_setMember _ _ _⟩
    refine (Json.ascending_setMember _ ?_).nodup_names
    split
    · next members hpayload => exact (hsorted.member? hpayload).1
    · exact .nil

end Agent

/-! ### Steps -/

namespace Agent.Modules

theorem entries_builtin : builtin.entries =
    [(modulePath Multiplier.name, Multiplier.program), (modulePath rootName, DotProduct.program)] :=
  rfl

theorem builtin_cases (h : builtin.get? module = some program) :
    (module = modulePath rootName ∧ program = DotProduct.program) ∨
      (module = modulePath Multiplier.name ∧ program = Multiplier.program) := by
  rw [get?, entries_builtin, Json.lookup?_cons, Json.lookup?_cons] at h
  split at h
  · next heq => exact .inr ⟨heq.symm, (Option.some.inj h).symm⟩
  · split at h
    · next heq => exact .inl ⟨heq.symm, (Option.some.inj h).symm⟩
    · cases h

end Agent.Modules

theorem InputTape.returns_of_reread? {tape t : InputTape} (h : tape.reread? = some t) :
    tape.payload.Returns t.payload := by
  rw [reread?_eq] at h
  obtain ⟨payload, hpayload, rfl⟩ := Option.map_eq_some_iff.1 h
  exact (Value.returns_of_within hpayload).1

namespace Engine

open Sandbox (Native)
open Agent (Delegated Processed Multiplier.name modulePath rootName)
open Workflow (AbortReason Machine Record Status State)

/-- A setting with the agents of this library, without a limit of time, and with bounds that leave
room for three steps. -/
structure BuiltinSetting (setting : Setting Native) : Prop where
  box : setting.box = .native
  timeout : setting.timeoutMs = none
  root : setting.module? rootName = some (modulePath rootName)
  multiplier : setting.module? Multiplier.name = some (modulePath Multiplier.name)
  /-- The module of the multiplier has no other name. -/
  only : ∀ name, setting.module? name = some (modulePath Multiplier.name) → name = Multiplier.name
  maxSteps : 3 ≤ setting.limits.maxSteps
  stagnation : 2 ≤ setting.limits.stagnationThreshold

/-- A session in which the agents of this library can be run: the disk is whole, and identifiers are
not empty. -/
structure BuiltinSession (s : Session Native) : Prop where
  whole : s.world.disk.Whole
  modules : s.state.modules = .builtin
  named : ∀ k, s.world.supply k ≠ ""

variable {setting : Setting Native} {n : UInt32} {task : Task} {s t : Session Native}
  {result : Result} {visits : List (Visit Native)} {u : Session Native} {m : Machine}

theorem BuiltinSession.resumes (h : BuiltinSession s) (hr : Resumes s t) : BuiltinSession t where
  whole := hr.whole
  modules := hr.state ▸ h.modules
  named k := by
    rw [hr.supply]
    exact h.named k

theorem builtin_step_cases (hsetting : BuiltinSetting setting) (hs : BuiltinSession s)
    {module : String} (hmodule : setting.module? task.agent = some module)
    (h : (step setting n task).result s = (.ok result, t)) :
    BuiltinSession t ∧ ∃ program payload elapsedMs,
      ((module = modulePath rootName ∧ program = DotProduct.program) ∨
        (module = modulePath Multiplier.name ∧ program = Multiplier.program)) ∧
      task.input.Returns payload ∧
      result = ruling setting n task.agent (freshId s) elapsedMs
        (program.run payload task.config).answer := by
  obtain ⟨hresumes, program, tape, elapsedMs, hprogram, htape, hresult⟩ :=
    native_step_cases hsetting.box hsetting.timeout hs.whole hmodule h
  rw [hs.modules] at hprogram
  exact ⟨hs.resumes hresumes, program, tape.payload, elapsedMs,
    Modules.builtin_cases hprogram, InputTape.returns_of_reread? htape, hresult⟩

theorem modulePath_rootName_ne : modulePath rootName ≠ modulePath Multiplier.name := by
  decide

section

variable (hsetting : BuiltinSetting setting) (hs : BuiltinSession s)
include hsetting hs

theorem settles_or_delegates
    (hagent : task.agent = rootName) (h : (step setting n task).result s = (.ok result, t)) :
    BuiltinSession t ∧ (Settles result ∨ ∃ record progress next,
      result = .pending record progress next ∧ Delegated next.input) := by
  have hroot : setting.module? task.agent = some (modulePath rootName) := by
    rw [hagent, hsetting.root]
  obtain ⟨ht, program, payload, elapsedMs, hprogram, hreturns, rfl⟩ :=
    builtin_step_cases hsetting hs hroot h
  refine ⟨ht, ?_⟩
  obtain ⟨-, rfl⟩ | ⟨hmodule, -⟩ := hprogram
  · obtain ⟨fault, hanswer⟩ | ⟨value, hanswer⟩ | ⟨product, name, hanswer⟩ :=
      DotProduct.answer_cases payload task.config
    · exact .inl (hanswer ▸ .invalid _ _ _)
    · exact .inl (hanswer ▸ settles_complete value)
    · rw [hanswer]
      refine (settles_or_delegate product name _).imp_right ?_
      rintro ⟨record, progress, next, hruling, -, -, hinput, -⟩
      exact ⟨record, progress, next, hruling,
        (DotProduct.delegated_delegated payload task.config product).returns hinput⟩
  · exact absurd hmodule modulePath_rootName_ne

/-- A step on a payload that was delegated ends the run, or the multiplier hands back to the first
agent. -/
theorem settles_or_returns
    (hknown : (setting.module? task.agent).isSome) (hinput : Delegated task.input)
    (h : (step setting n task).result s = (.ok result, t)) :
    BuiltinSession t ∧ (Settles result ∨ task.agent = Multiplier.name ∧
      ∃ record progress next, result = .pending record progress next ∧ next.agent = rootName ∧
        Processed next.input) := by
  obtain ⟨module, hmodule⟩ := Option.isSome_iff_exists.1 hknown
  obtain ⟨ht, program, payload, elapsedMs, hprogram, hreturns, rfl⟩ :=
    builtin_step_cases hsetting hs hmodule h
  have hpayload := hinput.returns hreturns
  refine ⟨ht, ?_⟩
  obtain ⟨-, rfl⟩ | ⟨rfl, rfl⟩ := hprogram
  · rw [DotProduct.answer_of_delegated task.config hpayload]
    exact .inl (.invalid _ _ _)
  · obtain ⟨value, hanswer⟩ | ⟨product, back, hanswer, ⟨members, rfl, hnames⟩, hback⟩ :=
      Multiplier.answer_cases task.config hpayload hreturns.sorted
    · exact .inl (hanswer ▸ settles_complete value)
    · rw [hanswer]
      refine (settles_or_delegate product rootName _).imp_right ?_
      rintro ⟨record, progress, next, hruling, -, hagent, hnext, number, hnumber⟩
      rw [hnumber] at hback
      have hprocessed : Processed (.object members) := ⟨⟨members, rfl, hnames⟩, number, hback⟩
      exact ⟨hsetting.only task.agent hmodule, record, progress, next, hruling, hagent,
        hprocessed.returns hnext⟩

theorem completes_of_processed (hagent : task.agent = rootName) (hinput : Processed task.input)
    (h : (step setting n task).result s = (.ok result, t)) :
    ∃ record value, result = .complete record value := by
  have hroot : setting.module? task.agent = some (modulePath rootName) := by
    rw [hagent, hsetting.root]
  obtain ⟨-, program, payload, elapsedMs, hprogram, hreturns, rfl⟩ :=
    builtin_step_cases hsetting hs hroot h
  obtain ⟨-, rfl⟩ | ⟨hmodule, -⟩ := hprogram
  · obtain ⟨number, hnumber⟩ := (hinput.returns hreturns).result
    simp only [DotProduct.program, hnumber]
    exact completes_of_depth_lt (hs.named _) (Nat.succ_pos _)
  · exact absurd hmodule modulePath_rootName_ne

end

/-! ### Runs -/

/-- Runs that ended with a value, for an answer that is not usable, or for an agent that is not
known. -/
inductive Settled : State → Prop
  | complete (value : Value) : Settled (.complete value)
  | invalid (n : UInt32) (message : String) : Settled (.aborted (.invalidResponse n message))
  | unknown (n : UInt32) (agent : String) : Settled (.aborted (.unknownAgent n agent))

theorem settled_feed (hrun : m.state = .running n) (h : Settles result) :
    Settled (result.feed m).state := by
  cases h with
  | complete record value => simpa [Result.feed, Machine.complete, hrun] using .complete value
  | invalid record n message =>
    simpa [Result.feed, Machine.abort, hrun, State.isTerminal] using .invalid n message
  | unknown record n agent =>
    simpa [Result.feed, Machine.abort, hrun, State.isTerminal] using .unknown n agent

theorem stateAfter_of_lt (limits : Workflow.Limits)
    (hstagnant : progress.stagnantSteps < progress.threshold) (hn : n < limits.maxSteps) :
    Machine.stateAfter limits n progress = .running (n + 1) := by
  have hstagnant : ¬ progress.isStagnant := by
    simpa [Progress.isStagnant] using hstagnant
  have hn : ¬ limits.maxSteps ≤ n := by simpa using hn
  rw [Machine.stateAfter, if_neg hstagnant, if_neg hn]

theorem state_pending (hrun : m.state = .running n) (record : Record)
    (value : Float) : (m.pending record value).state =
      Machine.stateAfter m.limits n (m.progress.observe value) := by
  simp only [Machine.pending, hrun]

theorem BuiltinSetting.state_pending (hsetting : BuiltinSetting setting) (record record' : Record)
    (value value' : Float) :
    ((Machine.started setting.limits).pending record value).state = .running 2 ∧
      (((Machine.started setting.limits).pending record value).pending record' value').state =
        .running 3 := by
  have hmax := hsetting.maxSteps
  have hthreshold := hsetting.stagnation
  have hfirst : ((Machine.started setting.limits).pending record value).state = .running 2 := by
    have hzero : (0 : UInt32) < setting.limits.stagnationThreshold := by grind
    have hone : 1 < setting.limits.maxSteps := by grind
    exact stateAfter_of_lt setting.limits hzero hone
  refine ⟨hfirst, (Engine.state_pending hfirst record' value').trans ?_⟩
  have htwo : 2 < setting.limits.maxSteps := by grind
  refine stateAfter_of_lt setting.limits ?_ htwo
  -- the first number never stagnates, so at most one of the two does
  have hsteps : (if value' > value then 0 else 0 + 1 : UInt32) <
      setting.limits.stagnationThreshold := by
    split <;> grind
  exact hsteps

theorem Trail.of_running (h : Trail setting m task s visits m' u) (hrun : m.state = .running n) :
    ∃ result t rest, visits = ⟨n, task, s, result, t⟩ :: rest ∧
      (Engine.step setting n task).result s = (.ok result, t) ∧
      Trail setting (result.feed m) (result.next task) t rest m' u := by
  cases h with
  | ended _ _ hnone => simp [Machine.currentStep?, hrun] at hnone
  | step hn hstep rest =>
    obtain rfl : n = _ := by simpa [Machine.currentStep?, hrun] using hn
    exact ⟨_, _, _, rfl, hstep, rest⟩

theorem Trail.of_settled
    (h : Trail setting m task s visits m' u) (hm : Settled m.state) : visits = [] ∧ m' = m := by
  cases h with
  | ended => exact ⟨rfl, rfl⟩
  | step hn =>
    rw [state_of_currentStep? hn] at hm
    cases hm

/-- What a run of the agents of this library comes to. -/
structure Chained (setting : Setting Native) (visits : List (Visit Native)) (r : Run) : Prop where
  /-- Each visit calls the module of its agent. -/
  called : ∀ v ∈ visits, (setting.module? v.task.agent).isSome
  history : r.history.map (·.agent) = visits.map (·.task.agent)
  length_le : visits.length ≤ 3
  settled : Settled r.state
  /-- A third step is that of the first agent after the multiplier handed back, and completes. -/
  third : visits.length = 3 →
    visits.map (·.task.agent) = [rootName, Multiplier.name, rootName] ∧
      ∃ value, r.state = .complete value

theorem map_agent_filterMap (hsteps : ∀ v ∈ visits,
      (step setting v.number v.task).result v.before = (.ok v.result, v.after))
    (hknown : ∀ v ∈ visits, (setting.module? v.task.agent).isSome) :
    (visits.filterMap (·.result.record?)).map (·.agent) = visits.map (·.task.agent) := by
  induction visits with
  | nil => rfl
  | cons v visits ih =>
    obtain ⟨record, hrecord, -, hagent, -⟩ := (step_recorded (hknown v List.mem_cons_self)
      (hsteps v List.mem_cons_self)).exists_record
    rw [List.filterMap_cons, hrecord, List.map_cons, List.map_cons, hagent,
      ih (fun w hw => hsteps w (List.mem_cons_of_mem v hw))
        fun w hw => hknown w (List.mem_cons_of_mem v hw)]

/-- The visits of a run: one that ends the run, or two of which the first one delegates, or three of
which the last one completes. -/
theorem Trail.chained (hsetting : BuiltinSetting setting) (hs : BuiltinSession s)
    (h : Trail setting (.started setting.limits) { agent := rootName, input, config } s visits m
      u) :
    (∀ v ∈ visits, (setting.module? v.task.agent).isSome) ∧ visits.length ≤ 3 ∧ Settled m.state ∧
      (visits.length = 3 →
        visits.map (·.task.agent) = [rootName, Multiplier.name, rootName] ∧
          ∃ value, m.state = .complete value) := by
  have hroot : (setting.module? rootName).isSome := by simp [hsetting.root]
  obtain ⟨first, t₁, rest, rfl, hfirst, h⟩ := h.of_running rfl
  obtain ⟨hs₁, hsettles | ⟨record, progress, next, rfl, hdelegated⟩⟩ :=
    settles_or_delegates hsetting hs rfl hfirst
  · obtain ⟨rfl, rfl⟩ := h.of_settled (settled_feed rfl hsettles)
    exact ⟨by simpa using hroot, by simp, settled_feed rfl hsettles, by simp⟩
  have hknown : (setting.module? next.agent).isSome := (step_recorded hroot hfirst).of_pending.2.2
  obtain ⟨hrun₂, hrun₃⟩ := hsetting.state_pending record record progress progress
  obtain ⟨second, t₂, rest, rfl, hsecond, h⟩ := h.of_running hrun₂
  obtain ⟨hs₂, hsettles | ⟨hagent, record', progress', back, rfl, hback, hprocessed⟩⟩ :=
    settles_or_returns hsetting hs₁ hknown hdelegated hsecond
  · obtain ⟨rfl, rfl⟩ := h.of_settled (settled_feed hrun₂ hsettles)
    exact ⟨by simpa using ⟨hroot, hknown⟩, by simp, settled_feed hrun₂ hsettles, by simp⟩
  obtain ⟨-, hrun₃⟩ := hsetting.state_pending record record' progress progress'
  obtain ⟨third, t₃, rest, rfl, hthird, h⟩ := h.of_running hrun₃
  obtain ⟨record'', value, rfl⟩ := completes_of_processed hsetting hs₂ hback hprocessed hthird
  have hsettles := Settles.complete record'' value
  obtain ⟨rfl, rfl⟩ := h.of_settled (settled_feed hrun₃ hsettles)
  have hknown' : (setting.module? back.agent).isSome := by rw [hback, hroot]
  refine ⟨by simpa using ⟨hroot, hknown, hknown'⟩, by simp, settled_feed hrun₃ hsettles,
    fun _ => ⟨?_, ?_⟩⟩
  · exact congrArg₂ (fun b c => [rootName, b, c]) hagent hback
  · exact ⟨value, by simp [Result.feed, Machine.complete, hrun₃]⟩

/-- A run that starts with the dot product makes at most three calls, whatever its input and its
configuration are, and it makes a third one only to complete. It ends with a value, for an answer
that is not usable, or for an agent that is not known: the agents cannot keep each other busy until
a bound of the run is reached, and no answer carries a foreign trace id. -/
theorem builtin_chain_ends (hsetting : BuiltinSetting setting) (hs : BuiltinSession s)
    (input config : Value) {r : Run} {s' : Session Native}
    (h : (run setting rootName input config).result s = (.ok r, s')) :
    ∃ visits m t, r = { state := m.state, history := m.history } ∧
      Trail setting (.started setting.limits) { agent := rootName, input, config }
        (s.reporting (startEvent setting rootName)) visits m t ∧
      Chained setting visits r := by
  obtain ⟨visits, m, t, rfl, htrail, -⟩ := run_trail h
  have hresumes := (Resumes.refl hs.whole).reporting (startEvent setting rootName)
  obtain ⟨hcalled, hlength, hsettled, hthird⟩ := htrail.chained hsetting (hs.resumes hresumes)
  refine ⟨visits, m, t, rfl, htrail, hcalled, ?_, hlength, hsettled, hthird⟩
  rw [htrail.history_eq]
  exact map_agent_filterMap (fun v hv => htrail.step_of_mem hv) hcalled

def pairSetting : Setting Native where
  box := .native
  table := [ (Multiplier.name, modulePath Multiplier.name), (rootName, modulePath rootName)]
  limits := { maxSteps := 3, stagnationThreshold := 2 }
  timeoutMs := none

/-- A sandbox with the two agents on an empty disk; an event log is open. -/
def pairSession : Session Native where
  world := {
    disk := .empty, reported := [], logs := ["/events"], clock := ⟨0⟩
    supply := fun k => String.ofList (List.replicate (k + 1) 'x'), drawn := 0 }
  state := { root := "/s", modules := .builtin, installer := "", installed := [], host := some {} }

def pairInput : Value :=
  .object [("vector", .array [.ofCount 1])]

/-- A configuration with a threshold that the product of the input does not reach. -/
def pairConfig : Value :=
  .object [("target_threshold", .ofCount 10), ("vector", .array [.ofCount 5])]

theorem builtinSetting_pair : BuiltinSetting pairSetting where
  box := rfl
  timeout := rfl
  root := by decide
  multiplier := by decide
  only name h := by
    rw [Setting.module?, pairSetting, Json.lookup?_cons, Json.lookup?_cons] at h
    split at h
    · next heq => exact heq.symm
    · split at h
      · exact absurd (Option.some.inj h) modulePath_rootName_ne
      · cases h
  maxSteps := by decide
  stagnation := by decide

theorem builtinSession_pair : BuiltinSession pairSession where
  whole := ⟨Disk.sound_of_fits (by decide), Disk.twinsAgree_of_nil rfl, List.forall_mem_nil _⟩
  modules := rfl
  named k := by simp [pairSession, List.replicate_succ]

theorem pair_ends :
    ((run pairSetting rootName pairInput pairConfig).result pairSession).1.toOption.map
      (fun r => (r.status, r.history.map (·.agent))) =
      some ("complete", [rootName, Multiplier.name]) := by
  decide +kernel

theorem builtin_chain_small : BuiltinSetting pairSetting ∧ BuiltinSession pairSession ∧ ∃ r s',
    (run pairSetting rootName pairInput pairConfig).result pairSession = (.ok r, s') ∧
    r.status = "complete" ∧
    r.history.map (·.agent) = [rootName, Multiplier.name] ∧
    ∃ visits m t, r = { state := m.state, history := m.history } ∧
      Trail pairSetting (.started pairSetting.limits)
        { agent := rootName, input := pairInput, config := pairConfig }
        (pairSession.reporting (startEvent pairSetting rootName)) visits m t ∧
      Chained pairSetting visits r := by
  obtain ⟨r, s', hrun, hends⟩ := Action.exists_of_map_toOption pair_ends
  exact ⟨builtinSetting_pair, builtinSession_pair, r, s', hrun, congrArg Prod.fst hends,
    congrArg Prod.snd hends,
    builtin_chain_ends builtinSetting_pair builtinSession_pair pairInput pairConfig hrun⟩

end Engine

end AgentChain
