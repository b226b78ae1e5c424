import AgentChain.Agent.Output
import AgentChain.Tape
import Mathlib.Tactic.Common

/-!
# What an output tape says

The rules of an output tape are a grammar: an output tape is an object with a trace id and a status,
an action on it runs an agent, a completing tape has a result, and a pending one has an action and a
progress. A tape gives an answer exactly when it follows the grammar, and the answer is made of the
members of the tape. So what is looked for after the rules were checked is always there. The tape that
an agent writes is read as its answer, unless the rules have no way to say it.
-/

namespace AgentChain

open Json (Value lookup?)
open Json.Value (member? text? float?)

theorem Json.Value.isObject_of_member? {v m : Value}
    (h : v.member? name = some m) : v.isObject := by
  cases v with
  | object members => rfl
  | _ => cases h

variable {v : Value}

theorem Json.Value.text?_eq_some_iff : v.text? = some s ↔ v = .string s := by
  cases v <;> simp [text?]

theorem Schema.Kind.includes_object : object.includes v = v.isObject := by
  cases v <;> rfl

theorem Schema.Kind.includes_text_iff : text.includes v ↔ ∃ s, v = .string s := by
  cases v <;> simp [includes]

theorem Schema.Kind.includes_number_iff : number.includes v ↔ ∃ n, v = .number n := by
  cases v <;> simp [includes]

namespace OutputTape

variable {v : Value} {next : Task} {progress : Option Float}

/-! ### The grammar -/

/-- The payload of an action names a task. Only an object has members. -/
structure NamesTask (payload : Value) (task : Task) : Prop where
  agent : payload.member? "agent_name" = some (.string task.agent)
  agent_ne : task.agent ≠ ""
  input : payload.member? "input_data" = some task.input
  /-- The configuration is an object, and an empty one if there is none. -/
  config : (payload.member? "agent_config" = some task.config ∧ task.config.isObject = true) ∨
    (payload.member? "agent_config" = none ∧ task.config = .object [])

/-- An action runs the agent of a task. -/
structure RunsAgent (action : Value) (task : Task) : Prop where
  type : action.member? "type" = some (.string "run_agent")
  payload : ∃ payload, action.member? "payload" = some payload ∧ NamesTask payload task

/-- The grammar of output tapes. -/
structure WellFormed (v : Value) : Prop where
  object : v.isObject = true
  traceId : ∃ id, v.member? "trace_id" = some (.string id) ∧ id ≠ ""
  status : v.member? "status" = some (.string "complete") ∨
    v.member? "status" = some (.string "pending")
  progress : ∀ p, v.member? "progress" = some p → ∃ n, p = .number n
  /-- An action is one that runs an agent, whatever the status is. -/
  action : ∀ a, v.member? "action" = some a → ∃ task, RunsAgent a task
  /-- A completing tape has a result, which may be `null`. -/
  complete : v.member? "status" = some (.string "complete") → ∃ r, v.member? "result" = some r
  pending : v.member? "status" = some (.string "pending") →
    (∃ a, v.member? "action" = some a) ∧ ∃ p, v.member? "progress" = some p

theorem breaches_named : named.breaches v = [] ↔ ∃ s, v = .string s ∧ s ≠ "" := by
  simp only [named, Schema.breaches_all, List.forall_mem_cons, Schema.breaches_kind,
    Schema.breaches_minLength, Schema.Kind.includes_text_iff]
  constructor
  · rintro ⟨⟨s, rfl⟩, hlength, -⟩
    refine ⟨s, rfl, ?_⟩
    rintro rfl
    simpa using hlength "" rfl
  · rintro ⟨s, rfl, hs⟩
    refine ⟨⟨s, rfl⟩, ?_, by simp⟩
    rintro _ ⟨⟩
    exact Nat.one_le_iff_ne_zero.2 fun hzero => hs (String.length_eq_zero_iff.1 hzero)

theorem breaches_payloadRules : payloadRules.breaches v = [] ↔ ∃ task, NamesTask v task := by
  simp only [payloadRules, Schema.breaches_all, List.mem_cons, List.not_mem_nil, or_false,
    forall_eq_or_imp, forall_eq, Schema.breaches_kind, Schema.Kind.includes_object,
    Schema.breaches_required, Schema.breaches_property, Schema.breaches_anything, breaches_named,
    implies_true, true_and]
  constructor
  · rintro ⟨hobject, hrequired, hagent, hconfig⟩
    obtain ⟨⟨name, hname⟩, input, hinput⟩ := hrequired hobject
    obtain ⟨agent, rfl, hne⟩ := hagent name hname
    cases hmember : v.member? "agent_config" with
    | none => exact ⟨⟨agent, input, .object []⟩, hname, hne, hinput, .inr ⟨hmember, rfl⟩⟩
    | some config =>
      exact ⟨⟨agent, input, config⟩, hname, hne, hinput, .inl ⟨hmember, hconfig config hmember⟩⟩
  · rintro ⟨task, h⟩
    refine ⟨Value.isObject_of_member? h.agent, fun _ => ⟨⟨_, h.agent⟩, _, h.input⟩,
      fun m hm => ⟨task.agent, Option.some.inj (hm.symm.trans h.agent), h.agent_ne⟩,
      fun m hm => ?_⟩
    obtain ⟨hconfig, hobject⟩ | ⟨hnone, -⟩ := h.config
    · exact Option.some.inj (hconfig.symm.trans hm) ▸ hobject
    · cases hnone.symm.trans hm

theorem breaches_actionRules : actionRules.breaches v = [] ↔ ∃ task, RunsAgent v task := by
  simp only [actionRules, Schema.breaches_all, List.mem_cons, List.not_mem_nil, or_false,
    forall_eq_or_imp, forall_eq, exists_eq_left, Schema.breaches_kind, Schema.Kind.includes_object,
    Schema.breaches_required, Schema.breaches_property, Schema.breaches_among,
    breaches_payloadRules]
  constructor
  · rintro ⟨hobject, hrequired, htype, hpayload⟩
    obtain ⟨⟨type, htype'⟩, payload, hpayload'⟩ := hrequired hobject
    obtain ⟨task, htask⟩ := hpayload payload hpayload'
    exact ⟨task, htype type htype' ▸ htype', payload, hpayload', htask⟩
  · rintro ⟨task, htype, payload, hpayload, htask⟩
    refine ⟨Value.isObject_of_member? htype, fun _ => ⟨⟨_, htype⟩, _, hpayload⟩,
      fun m hm => Option.some.inj (hm.symm.trans htype), fun m hm => ⟨task, ?_⟩⟩
    exact Option.some.inj (hpayload.symm.trans hm) ▸ htask

/-- The tapes that follow the rules are those of the grammar. The two conditions on the status are
only met by a tape that has one of the two statuses, because a status is required. -/
theorem flaws_eq_nil_iff : flaws v = [] ↔ WellFormed v := by
  simp only [flaws, rules, Schema.breaches_all, List.mem_cons, List.not_mem_nil, or_false,
    forall_eq_or_imp, forall_eq, exists_eq_or_imp, exists_eq_left, Schema.breaches_kind,
    Schema.Kind.includes_object, Schema.Kind.includes_number_iff, Schema.breaches_required,
    Schema.breaches_property, Schema.breaches_among, Schema.breaches_ifThen,
    Schema.breaches_anything, breaches_named, breaches_actionRules, implies_true, true_and]
  constructor
  · rintro ⟨hobject, hrequired, htrace, hstatus, hprogress, haction, hcomplete, hpending⟩
    obtain ⟨⟨id, hid⟩, status, hstatus'⟩ := hrequired hobject
    obtain ⟨text, rfl, htext⟩ := htrace id hid
    refine ⟨hobject, ⟨text, hid, htext⟩, ?_, hprogress, haction, fun h => ?_, fun h => ?_⟩
    · obtain rfl | rfl := hstatus status hstatus'
      · exact .inl hstatus'
      · exact .inr hstatus'
    · exact hcomplete (fun m hm => Option.some.inj (hm.symm.trans h)) hobject
    · exact hpending (fun m hm => Option.some.inj (hm.symm.trans h)) hobject
  · rintro ⟨hobject, ⟨id, hid, hne⟩, hstatus, hprogress, haction, hcomplete, hpending⟩
    obtain ⟨status, hmember⟩ : ∃ m, v.member? "status" = some m := hstatus.elim (⟨_, ·⟩) (⟨_, ·⟩)
    refine ⟨hobject, fun _ => ⟨⟨_, hid⟩, status, hmember⟩,
      fun m hm => ⟨id, Option.some.inj (hm.symm.trans hid), hne⟩,
      fun m hm => hstatus.imp (fun h => Option.some.inj (hm.symm.trans h))
        fun h => Option.some.inj (hm.symm.trans h), hprogress, haction, fun h _ => ?_, fun h _ => ?_⟩
    · exact hcomplete (h status hmember ▸ hmember)
    · exact hpending (h status hmember ▸ hmember)

/-! ### Answers -/

/-- The progress that a tape reports, if it reports any. -/
inductive Reports (v : Value) : Option Float → Prop
  | absent (h : v.member? "progress" = none) : Reports v none
  | present {n : Json.Number} (h : v.member? "progress" = some (.number n)) :
    Reports v (some n.toFloat)

/-- The answer that the members of a tape make up. -/
inductive Gives (v : Value) : Answer → Prop
  | complete {result : Value} {progress : Option Float}
    (hstatus : v.member? "status" = some (.string "complete"))
    (hresult : v.member? "result" = some result) (hprogress : Reports v progress) :
    Gives v (.complete result progress)
  | pending {progress : Float} {next : Task} {action : Value}
    (hstatus : v.member? "status" = some (.string "pending"))
    (hprogress : Reports v (some progress)) (haction : v.member? "action" = some action)
    (hnext : RunsAgent action next) :
    Gives v (.pending progress next)

theorem text?_status_iff :
    (v.member? "status").bind text? = some s ↔ v.member? "status" = some (.string s) := by
  simp [Option.bind_eq_some_iff, Value.text?_eq_some_iff]

theorem WellFormed.reports_iff (h : WellFormed v) :
    Reports v progress ↔ (v.member? "progress").bind float? = progress := by
  constructor
  · rintro (hnone | hsome)
    · rw [hnone]
      rfl
    · rw [hsome]
      rfl
  · rintro rfl
    cases hmember : v.member? "progress" with
    | none => exact .absent hmember
    | some p =>
      obtain ⟨n, rfl⟩ := h.progress p hmember
      exact .present hmember

/-- A tape completes the work exactly when it follows the rules and says so; the result is its
member of that name. -/
theorem interpret_eq_complete_iff :
    interpret v = .ok (.complete result progress) ↔
      flaws v = [] ∧ (v.member? "status").bind text? = some "complete" ∧
      v.member? "result" = some result ∧
      (v.member? "progress").bind float? = progress := by
  constructor
  · intro h
    unfold interpret at h
    split_ifs at h with hflaws
    dsimp only at h
    split at h
    · rename_i hstatus
      obtain ⟨result', hresult⟩ := (flaws_eq_nil_iff.1 hflaws).complete (text?_status_iff.1 hstatus)
      rw [hresult] at h
      cases h
      exact ⟨hflaws, hstatus, hresult, rfl⟩
    · split at h
      · cases h
      · cases hnext : next? v <;> simp [hnext, Except.map] at h
    · cases h
  · rintro ⟨hflaws, hstatus, hresult, rfl⟩
    simp [interpret, hflaws, hstatus, hresult]

/-- A tape hands over exactly when it follows the rules, says that it is pending, has a progress and
names a task. -/
theorem interpret_eq_pending_iff {progress} : interpret v = .ok (.pending progress next) ↔
      flaws v = [] ∧ (v.member? "status").bind text? = some "pending" ∧
      (v.member? "progress").bind float? = some progress ∧ next? v = .ok next := by
  constructor
  · intro h
    unfold interpret at h
    split_ifs at h with hflaws
    dsimp only at h
    split at h
    · cases h
    · rename_i hstatus
      split at h
      · cases h
      · rename_i p hprogress
        cases hnext : next? v with
        | error flaw => simp [hnext, Except.map] at h
        | ok task =>
          rw [hnext] at h
          cases h
          exact ⟨hflaws, hstatus, hprogress, rfl⟩
    · cases h
  · rintro ⟨hflaws, hstatus, hprogress, hnext⟩
    simp [interpret, hflaws, hstatus, hprogress, hnext, Except.map]

theorem next?_eq_ok_iff : next? v = .ok next ↔ ∃ action payload, v.member? "action" = some action ∧
      action.member? "payload" = some payload ∧
      (payload.member? "agent_name").bind text? = some next.agent ∧
      next.input = (payload.member? "input_data").getD .null ∧
      next.config = (payload.member? "agent_config").getD (.object []) := by
  unfold next?
  cases hpayload : (v.member? "action").bind (·.member? "payload") with
  | none => grind
  | some payload =>
    dsimp only
    cases hagent : (payload.member? "agent_name").bind text? with
    | none => grind
    | some agent =>
      obtain ⟨action, haction, hpayload⟩ := Option.bind_eq_some_iff.mp hpayload
      constructor
      · rintro ⟨⟩
        exact ⟨action, payload, haction, hpayload, hagent, rfl, rfl⟩
      · rintro ⟨action', payload', haction', hpayload', hagent', hinput, hconfig⟩
        obtain rfl : action = action' := by simpa [haction] using haction'
        obtain rfl : payload = payload' := by simpa [hpayload] using hpayload'
        obtain rfl : agent = next.agent := by simpa [hagent] using hagent'
        rw [← hinput, ← hconfig]

theorem next?_eq_ok_of_runsAgent
    (haction : v.member? "action" = some action) (h : RunsAgent action next) :
    next? v = .ok next := by
  obtain ⟨payload, hpayload, hnames⟩ := h.payload
  refine next?_eq_ok_iff.2 ⟨action, payload, haction, hpayload, by rw [hnames.agent]; rfl,
    by rw [hnames.input]; rfl, ?_⟩
  obtain ⟨hconfig, -⟩ | ⟨hconfig, hempty⟩ := hnames.config
  · rw [hconfig]
    rfl
  · rw [hconfig, hempty]
    rfl

theorem WellFormed.interpret_eq_ok_iff (h : WellFormed v) {answer} :
    interpret v = .ok answer ↔ Gives v answer := by
  have hflaws := flaws_eq_nil_iff.2 h
  cases answer with
  | complete result progress =>
    rw [interpret_eq_complete_iff, text?_status_iff, ← h.reports_iff]
    constructor
    · exact fun ⟨_, hstatus, hresult, hprogress⟩ => .complete hstatus hresult hprogress
    · rintro ⟨hstatus, hresult, hprogress⟩
      exact ⟨hflaws, hstatus, hresult, hprogress⟩
  | pending progress next =>
    rw [interpret_eq_pending_iff, text?_status_iff, ← h.reports_iff]
    constructor
    · rintro ⟨-, hstatus, hprogress, hnext⟩
      obtain ⟨⟨action, haction⟩, -⟩ := h.pending hstatus
      obtain ⟨task, htask⟩ := h.action action haction
      cases hnext.symm.trans (next?_eq_ok_of_runsAgent haction htask)
      exact .pending hstatus hprogress haction htask
    · rintro (_ | ⟨hstatus, hprogress, haction, hnext⟩)
      exact ⟨hflaws, hstatus, hprogress, next?_eq_ok_of_runsAgent haction hnext⟩

theorem interpret_eq_ok_iff : interpret v = .ok answer ↔ WellFormed v ∧ Gives v answer := by
  by_cases h : WellFormed v
  · simp only [h, true_and, h.interpret_eq_ok_iff]
  · have hrefused : interpret v = .error (.rules (flaws v)) := if_neg fun hnone =>
      h (flaws_eq_nil_iff.1 hnone)
    simp [hrefused, h]

theorem WellFormed.exists_gives (h : WellFormed v) : ∃ answer, Gives v answer := by
  obtain hstatus | hstatus := h.status
  · obtain ⟨result, hresult⟩ := h.complete hstatus
    exact ⟨_, .complete hstatus hresult (h.reports_iff.2 rfl)⟩
  · obtain ⟨⟨action, haction⟩, p, hp⟩ := h.pending hstatus
    obtain ⟨task, htask⟩ := h.action action haction
    obtain ⟨n, rfl⟩ := h.progress p hp
    exact ⟨_, .pending hstatus (.present hp) haction htask⟩

/-- An output tape is read exactly when it follows the grammar, and the answer is the one that its
members make up. A tape that is refused breaks a rule: nothing is found missing later. -/
theorem interpret_exact (v : Value) :
    ((∃ answer, interpret v = .ok answer) ↔ WellFormed v) ∧
      (∀ answer, interpret v = .ok answer ↔ WellFormed v ∧ Gives v answer) ∧
      ∀ flaw, interpret v = .error flaw → ∃ broken, broken ≠ [] ∧ flaw = .rules broken := by
  refine ⟨⟨?_, fun h => ?_⟩, fun _ => interpret_eq_ok_iff, fun flaw hflaw => ?_⟩
  · rintro ⟨answer, hanswer⟩
    exact (interpret_eq_ok_iff.1 hanswer).1
  · obtain ⟨answer, hgives⟩ := h.exists_gives
    exact ⟨answer, interpret_eq_ok_iff.2 ⟨h, hgives⟩⟩
  · by_cases hnone : flaws v = []
    · obtain ⟨answer, hgives⟩ := (flaws_eq_nil_iff.1 hnone).exists_gives
      cases hflaw.symm.trans (interpret_eq_ok_iff.2 ⟨flaws_eq_nil_iff.1 hnone, hgives⟩)
    · have hrefused : interpret v = .error (.rules (flaws v)) := if_neg hnone
      cases hflaw.symm.trans hrefused
      exact ⟨flaws v, hnone, rfl⟩

/-! ### Tapes that agents write -/

open Agent (Output)

variable {o : Output} {traceId : String} {task : Task}

def Readable (traceId : String) : Output → Prop
  | .complete _ => traceId ≠ ""
  | .delegate progress agent _ config =>
    traceId ≠ "" ∧ progress.isFinite = true ∧ agent ≠ "" ∧ ∀ c ∈ config, c.isObject = true

/-- An answer as it is read: without a configuration, the next agent has an empty one. -/
def readAs : Output → Answer
  | .complete result => .complete result none
  | .delegate progress agent input config =>
    .pending progress { agent, input, config := config.getD (.object []) }

theorem ofFloat_eq_number_iff : (∃ n, Value.ofFloat x = .number n) ↔ x.isFinite := by
  rw [Value.ofFloat, Json.Number.ofFloat?]
  split <;> simp_all

theorem namesTask_iff {config : Option Value} :
    NamesTask (.object ((config.map fun c => ("agent_config", c)).toList ++
      [("agent_name", .string agent), ("input_data", input)])) task ↔
    agent ≠ "" ∧ (∀ c ∈ config, c.isObject) ∧
      task = { agent, input, config := config.getD (.object []) } := by
  constructor
  · rintro ⟨hagent, hne, hinput, hconfig⟩
    cases config <;> simp [member?, lookup?] at hagent hinput hconfig <;> grind [Task]
  · rintro ⟨hne, hobject, rfl⟩
    cases config <;> constructor <;> simp_all [member?, lookup?]

theorem runsAgent_iff :
    RunsAgent (.object [("payload", payload), ("type", .string "run_agent")]) task ↔
      NamesTask payload task := by
  constructor
  · rintro ⟨-, payload', hpayload, hnames⟩
    obtain rfl : payload = payload' := by simpa [member?, lookup?] using hpayload
    exact hnames
  · exact fun h => ⟨by simp [member?, lookup?], payload, by simp [member?, lookup?], h⟩

theorem wellFormed_toTape_iff : WellFormed (o.toTape traceId) ↔ Readable traceId o := by
  constructor
  · rintro ⟨-, ⟨id, hid, hne⟩, -, hprogress, haction, -, -⟩
    cases o with
    | complete result =>
      simp_all [Output.toTape, member?, lookup?, Readable]
    | delegate progress agent input config =>
      simp [Output.toTape, member?, lookup?, ofFloat_eq_number_iff, runsAgent_iff,
        namesTask_iff] at hid hprogress haction
      simp_all [Readable]
  · intro h
    cases o with
    | complete result =>
      constructor <;> simp_all [Output.toTape, member?, lookup?, Readable, Value.isObject]
    | delegate progress agent input config =>
      obtain ⟨hid, hprogress, hagent, hconfig⟩ := h
      constructor <;> simp_all [Output.toTape, member?, lookup?,
        ofFloat_eq_number_iff, runsAgent_iff, namesTask_iff, Value.isObject]

theorem gives_toTape (h : Readable traceId o) : Gives (o.toTape traceId) (readAs o) := by
  cases o with
  | complete result =>
    refine .complete ?_ ?_ (.absent ?_) <;> simp [Output.toTape, member?, lookup?]
  | delegate progress agent input config =>
    obtain ⟨-, hprogress, hagent, hconfig⟩ := h
    have hreports : Reports ((Output.delegate progress agent input config).toTape traceId)
        (some progress) := by
      refine .present (n := .float progress hprogress) ?_
      simp [Output.toTape, member?, lookup?, Value.ofFloat, Json.Number.ofFloat?, hprogress]
    refine .pending ?_ hreports ?_ (runsAgent_iff.2 (namesTask_iff.2 ⟨hagent, hconfig, rfl⟩)) <;>
      simp [Output.toTape, member?, lookup?]

/-- The tape of an answer carries the trace id that it is written with. It is read exactly if the trace
id is not empty and the answer completes, or hands over with a finite progress to an agent that has a
name, with a configuration that is an object if there is one; and then it is read as that answer. -/
theorem interpret_toTape_exact (o : Output) (traceId : String) :
    (∀ answer, interpret (o.toTape traceId) = .ok answer ↔ Readable traceId o ∧ answer = readAs o) ∧
      checkTrace (o.toTape traceId) traceId = .ok () := by
  refine ⟨fun answer => ?_, ?_⟩
  · rw [interpret_eq_ok_iff, wellFormed_toTape_iff]
    refine and_congr_right fun h => ⟨fun hgives => ?_, fun heq => heq ▸ gives_toTape h⟩
    have hwell := wellFormed_toTape_iff.2 h
    cases (hwell.interpret_eq_ok_iff.2 hgives).symm.trans (hwell.interpret_eq_ok_iff.2 (gives_toTape h))
    rfl
  · cases o <;> simp [checkTrace, traceId?, Output.toTape, member?, lookup?, text?]

end OutputTape

end AgentChain
