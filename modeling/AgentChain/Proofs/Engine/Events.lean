import AgentChain.Proofs.Document
import AgentChain.Proofs.Engine.Records
import AgentChain.Proofs.Engine.Soundness

/-!
# The events of a run

The events that the engine reports tell a run exactly: one that it starts, one or two for each
record of the history, and one that it ends. The events of a step come from two places of the
engine, before the call of the module and after the tape was judged. Still the record that a step
leaves says which events it reported. This holds in any sandbox, because a sandbox can neither
report events nor take any back.
-/

namespace AgentChain

/-- An event with the time at which it is reported. -/
def Event.at (e : Event) (time : Timestamp) : Event :=
  { e with timestamp := time.millis }

namespace Session

variable {S : Type} {s t u : Session S} {events later : List Event}

/-- Between two sessions some events are reported, and no others. -/
structure Tells (events : List Event) (s t : Session S) : Prop where
  clock : t.world.clock = s.world.clock
  reported : t.world.reported = s.world.reported ++ events.map (·.at s.world.clock)

theorem Tells.refl (s : Session S) : Tells [] s s :=
  ⟨rfl, by simp⟩

theorem Tells.trans (h : Tells events s t) (h' : Tells later t u) : Tells (events ++ later) s u where
  clock := h'.clock.trans h.clock
  reported := by
    rw [h'.reported, h.reported, h.clock, List.map_append, List.append_assoc]

theorem tells_reporting (s : Session S) (e : Event) : Tells [e] s (s.reporting e) :=
  ⟨rfl, rfl⟩

theorem tells_foldl_reporting (events : List Event) (s : Session S) :
    Tells events s (events.foldl reporting s) := by
  induction events generalizing s with
  | nil => exact .refl s
  | cons e events ih => exact (tells_reporting s e).trans (ih (s.reporting e))

theorem tells_afterDraw (s : Session S) : Tells [] s s.afterDraw :=
  ⟨rfl, by simp [afterDraw]⟩

theorem tells_of_onState (h : (onState x).result s = (r, t)) : Tells [] s t := by
  rw [onState, Action.result_onPart] at h
  cases h
  exact ⟨rfl, (List.append_nil _).symm⟩

end Session

namespace Engine

open Session (Tells)
open Workflow (AbortReason Machine Record Status State)
open Document

variable {S : Type} {setting : Setting S} {task : Task}

def engineEvent (level : Event.Level) (name : String) (fields : List (String × Json.Value)) :
    Event :=
  { timestamp := "", stage := "engine", level, name, fields }

def stepEvents (r : Record) : List Event :=
  engineEvent .debug "step_started" [
      ("agent", .string r.agent), ("step", .ofUInt32 r.step), ("trace_id", .string r.traceId)] ::
    if r.status = .failed then []
    else [engineEvent .info "step_finished" [
      ("agent", .string r.agent), ("progress", .ofOption .ofFloat r.progress),
      ("status", .string r.status.text), ("step", .ofUInt32 r.step)]]

/-! ### The events of a step -/

section Step

variable {n : UInt32} {agent traceId : String} {elapsedMs : UInt64} {result : Result}

theorem stepEvents_of_failed (progress : Option Float) :
    stepEvents (recordOf n agent traceId elapsedMs .failed progress) =
      [startedEvent n agent traceId] :=
  rfl

theorem stepEvents_judge (setting : Setting S) (n : UInt32) (agent traceId : String)
    (elapsedMs : UInt64) (output : Json.Value) : ∃ record,
    (judge setting n agent traceId (recordOf n agent traceId elapsedMs) output).1.record? =
        some record ∧
      stepEvents record = startedEvent n agent traceId ::
        (judge setting n agent traceId (recordOf n agent traceId elapsedMs) output).2 := by
  fun_cases judge with
  | case1 | case2 => exact ⟨_, rfl, stepEvents_of_failed none⟩
  | case3 | case4 | case5 => exact ⟨_, rfl, rfl⟩

theorem Followed.tells
    (h : Followed setting n agent traceId elapsedMs returned ending result after) :
    ∃ record events, result.record? = some record ∧
      stepEvents record = startedEvent n agent traceId :: events ∧ Tells events returned after := by
  cases h with
  | failed reason => exact ⟨_, [], rfl, stepEvents_of_failed none, .refl _⟩
  | timedOut => exact ⟨_, [], rfl, stepEvents_of_failed none, .refl _⟩
  | unreadable hread =>
    refine ⟨_, [], rfl, stepEvents_of_failed none, ?_⟩
    obtain ⟨answer, hread', -⟩ := exists_result_readOutput setting.box returned
    cases hread.symm.trans hread'
    exact Session.tells_of_onState rfl
  | @judged output t hread =>
    obtain ⟨record, hrecord, hevents⟩ := stepEvents_judge setting n agent traceId elapsedMs output
    refine ⟨record, _, hrecord, hevents, ?_⟩
    obtain ⟨answer, hread', -⟩ := exists_result_readOutput setting.box returned
    cases hread.symm.trans hread'
    exact (Session.tells_of_onState rfl).trans (Session.tells_foldl_reporting _ _)

theorem handOver_tells (h : (handOver setting n task).result s = (.ok traceId, t)) :
    Tells [startedEvent n task.agent traceId] s t := by
  obtain ⟨-, written, cleared, hwritten, hcleared, rfl⟩ := handOver_eq_ok_iff.mp h
  have hready : Tells [] s.afterDraw cleared :=
    (Session.tells_of_onState hwritten).trans (Session.tells_of_onState hcleared)
  exact (s.tells_afterDraw.trans hready).trans (cleared.tells_reporting _)

theorem step_tells (h : (step setting n task).result s = (.ok result, after)) :
    Tells (result.record?.toList.flatMap stepEvents) s after := by
  obtain ⟨-, rfl, rfl⟩ | ⟨module, traceId, called, ending, elapsedMs, returned, -, hhanded, hcall,
    hfollowed⟩ := step_cases h
  · exact .refl _
  · obtain ⟨record, events, hrecord, hevents, hafter⟩ := hfollowed.tells
    have hreturned : Tells [] called returned := Session.tells_of_onState hcall
    rw [hrecord, Option.toList_some, List.flatMap_singleton, hevents]
    exact ((handOver_tells hhanded).trans hreturned).trans hafter

end Step

/-! ### The events of a run -/

theorem Trail.tells (h : Trail setting m task s visits m' u) :
    Tells ((visits.filterMap (·.result.record?)).flatMap stepEvents) s u := by
  induction h with
  | ended task s => exact .refl s
  | @step m _ n task s t u result visits hn hstep rest ih =>
    have hrecords : (⟨n, task, s, result, t⟩ :: visits).filterMap (·.result.record?) =
        result.record?.toList ++ visits.filterMap (·.result.record?) := by
      cases hrecord : result.record? <;> simp [hrecord]
    rw [hrecords, List.flatMap_append]
    exact (step_tells hstep).trans ih

theorem ofDocument?_sortedObject (reason : AbortReason) :
    AbortReason.ofDocument? (.ofValue (sortedObject reason.toValue)) = some reason := by
  -- The order of the names is decided first: no lemma about it may rewrite the comparisons.
  cases reason <;> simp +decide only [AbortReason.toValue, sortedObject, Json.sortMembers,
    List.foldl_cons, List.foldl_nil, Json.setMember, if_true, if_false]
  case traceMismatch step expected actual =>
    cases actual <;>
      simp [AbortReason.ofDocument?, AbortReason.ofFields?, Json.Value.ofUInt32,
        Json.Value.ofOption, ofValue, ofMembers, isReadable, value?, members?, fields?, fieldsUpTo?,
        allDistinct, Fields.required?, Fields.optional?, text?, option?, uint32?_natural]
  all_goals
    simp [AbortReason.ofDocument?, AbortReason.ofFields?, Json.Value.ofUInt32,
      Json.Value.ofUInt64, ofValue, ofMembers, isReadable, value?, members?, fields?, fieldsUpTo?,
      allDistinct, Fields.required?, text?, uint64?, uint32?_natural]

/-- The event that ends a run, with the number of its records. -/
inductive EndEvent (r : Run) : Event → Prop
  | complete {result : Json.Value} {steps : UInt64} (hstate : r.state = .complete result)
    (hsteps : steps.toNat = r.history.length) :
    EndEvent r (engineEvent .info "workflow_complete" [("steps", .ofUInt64 steps)])
  /-- The reason is written on the event, and can be read back from it. -/
  | aborted {reason : AbortReason} {steps : UInt64} (hstate : r.state = .aborted reason)
    (hreason : AbortReason.ofDocument? (.ofValue (sortedObject reason.toValue)) = some reason)
    (hsteps : steps.toNat = r.history.length) :
    EndEvent r (engineEvent .error "workflow_aborted" [
      ("reason", sortedObject reason.toValue), ("steps", .ofUInt64 steps)])

theorem stepBound_lt_size (limits : Workflow.Limits) : limits.stepBound < UInt64.size := by
  have hmax := limits.maxSteps.toNat_lt
  simp only [Workflow.Limits.stepBound, UInt64.size]
  omega

theorem exists_endEvent (hterminal : r.state.isTerminal)
    (hlength : r.history.length < UInt64.size) :
    ∃ last, EndEvent r last ∧ endEvent? r = some last := by
  have hsteps : (UInt64.ofNat r.history.length).toNat = r.history.length :=
    UInt64.toNat_ofNat_of_lt' hlength
  cases hstate : r.state with
  | complete result =>
    refine ⟨_, .complete hstate hsteps, ?_⟩
    rw [endEvent?, hstate]
    rfl
  | aborted reason =>
    refine ⟨_, .aborted hstate (ofDocument?_sortedObject reason) hsteps, ?_⟩
    rw [endEvent?, hstate]
    rfl
  | idle | running => simp [hstate, State.isTerminal] at hterminal

/-- The events of a run tell it exactly: it starts, each record of its history is told in order, and
it ends. -/
theorem run_told_by_events (setting : Setting S) (rootAgent : String) (input config : Json.Value)
    (s s' : Session S) (r : Run)
    (hrun : (run setting rootAgent input config).result s = (.ok r, s')) :
    ∃ last, EndEvent r last ∧
      s'.world.reported = s.world.reported ++
        (engineEvent .info "workflow_started" [
            ("max_steps", .ofUInt32 setting.limits.maxSteps), ("root_agent", .string rootAgent)] ::
          (r.history.flatMap stepEvents ++ [last])).map (·.at s.world.clock) := by
  obtain ⟨visits, m, t, rfl, htrail, rfl⟩ := run_trail hrun
  obtain ⟨hterminal, hlength⟩ := htrail.isTerminal (Machine.sound_started _) rfl
  have hsize : m.history.length < UInt64.size :=
    Nat.lt_of_le_of_lt hlength (stepBound_lt_size setting.limits)
  obtain ⟨last, hlast, hend⟩ := exists_endEvent (r := ⟨m.state, m.history⟩) hterminal hsize
  refine ⟨last, hlast, ?_⟩
  have hstart := s.tells_reporting (startEvent setting rootAgent)
  have hstop := Session.tells_foldl_reporting [last] t
  have hhistory : m.history = visits.filterMap (·.result.record?) := htrail.history_eq
  rw [hend, hhistory]
  exact ((hstart.trans htrail.tells).trans hstop).reported

theorem relay_run_told : ∃ r s',
    (run relay "planner" .null .null).result relaySession = (.ok r, s') ∧
    r.status = "complete" ∧ r.history.length = 2 ∧
    ∃ last, EndEvent r last ∧
      s'.world.reported =
        (engineEvent .info "workflow_started" [
            ("max_steps", .ofUInt32 20), ("root_agent", .string "planner")] ::
          (r.history.flatMap stepEvents ++ [last])).map (·.at ⟨0⟩) := by
  obtain ⟨r, s', hrun, hends⟩ := Action.exists_of_map_toOption relay_ends
  exact ⟨r, s', hrun, congrArg Prod.fst hends, congrArg Prod.snd hends,
    run_told_by_events relay "planner" .null .null relaySession s' r hrun⟩

end Engine

end AgentChain
