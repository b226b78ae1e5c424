import AgentChain.Proofs.Action
import AgentChain.Proofs.Json.Fidelity
import AgentChain.Sandbox.Scripted

/-!
# Calls of a scripted sandbox

A scripted sandbox reads the input tape of a call before it answers. A tape that was written to the
file is read with the trace id that it carries, as long as its payload is nested at most 126 levels
deep: the tape itself is one level more. A payload whose numbers are integers is read as it was.
With a reply at hand the call then ends, it is remembered, and there is a reply for the next call,
because the last reply is given again. What a call comes to is determined by the tape and the reply
alone.
-/

namespace AgentChain

/-! ### Tapes that were written -/

namespace InputTape

variable {tape : InputTape}

def reread? (tape : InputTape) : Option InputTape :=
  (Json.parse? tape.toValue.compact).bind ofDocument?

theorem reread?_eq (tape : InputTape) :
    tape.reread? = ((Document.ofValueWithin (Json.depthLimit - 1) tape.payload.reread).value?).map
      fun payload => { traceId := tape.traceId, payload } := by
  rw [reread?, Json.parse?_compact, Option.bind_some]
  change (Document.value? _).bind (fun payload => some (InputTape.mk tape.traceId payload)) = _
  rw [Option.map_eq_bind]
  rfl

theorem exists_reread? (h : tape.payload.depth < Json.depthLimit) :
    ∃ payload, tape.reread? = some { traceId := tape.traceId, payload } := by
  obtain ⟨payload, hpayload⟩ := Document.exists_value?_ofValue tape.payload.reread
  refine ⟨payload, ?_⟩
  rw [reread?_eq, Document.ofValueWithin_of_depth_le _
    (tape.payload.depth_reread.trans_le (Nat.le_sub_one_of_lt h)), hpayload]
  rfl

/-- A tape that is read comes back with its trace id, and with its payload if the numbers in it are
integers. -/
theorem of_reread? (h : tape.reread? = some t) :
    tape.payload.depth < Json.depthLimit ∧ t.traceId = tape.traceId ∧
      (tape.payload.Sorted → tape.payload.Integral → t.payload = tape.payload) := by
  rw [reread?_eq] at h
  obtain ⟨payload, hpayload, rfl⟩ := Option.map_eq_some_iff.mp h
  have hdepth : tape.payload.depth ≤ Json.depthLimit - 1 := by
    simpa [Json.Value.depth_reread] using Document.depth_le_of_value?_within _ hpayload
  refine ⟨Nat.lt_of_le_pred (by decide) hdepth, rfl, fun hsorted hintegral => ?_⟩
  rw [Json.Value.reread_of_integral _ hintegral, Document.ofValueWithin_of_depth_le _ hdepth,
    Document.value?_ofValue _ hsorted] at hpayload
  exact (Option.some.inj hpayload).symm

end InputTape

namespace Sandbox

/-! ### Files in memory -/

namespace MemoryFiles

theorem readBytes_writeFile (m : MemoryFiles) (path : String) (contents : Bytes) :
    (m.writeFile path contents).readBytes path = some contents :=
  Json.lookup?_setMember path contents _

variable {path other : String}

theorem readBytes_writeFile_of_ne (m : MemoryFiles) (h : path ≠ other)
    (contents : Bytes) : (m.writeFile other contents).readBytes path = m.readBytes path := by
  have hfiles : (m.writeFile other contents).files = Json.setMember other contents m.files := by
    unfold writeFile
    cases beforeLastSlash? other <;> rfl
  rw [readBytes, hfiles, Json.lookup?_setMember_of_ne h]
  rfl

theorem readBytes_removeFile (m : MemoryFiles) (h : path ≠ other) :
    (m.removeFile other).readBytes path = m.readBytes path :=
  Json.lookup?_filter_ne h m.files

theorem readBytes_removeFile_self (m : MemoryFiles) (path : String) :
    (m.removeFile path).readBytes path = none := by
  simp [readBytes, removeFile, Json.lookup?]

end MemoryFiles

/-! ### Replies -/

namespace Reply

/-- What a reply writes on the output tape of a call with the given trace id. -/
def tape? (traceId : String) : Reply → Option Bytes
  | echo doc => some (Bytes.ofText (Scripted.withTraceId traceId doc).compact)
  | raw doc => some (Bytes.ofText doc.compact)
  | bytes b => some b
  | noTape | failed _ | timedOut => none

def ending : Reply → Ending
  | failed reason => .failed reason
  | timedOut => .timedOut
  | echo _ | raw _ | bytes _ | noTape => .finished

def leave (reply : Reply) (path traceId : String) (m : MemoryFiles) : MemoryFiles :=
  (reply.tape? traceId).elim m (m.writeFile path)

theorem readBytes_leave (reply : Reply) (traceId : String)
    (h : m.readBytes path = none) : (reply.leave path traceId m).readBytes path =
      reply.tape? traceId := by
  unfold leave
  cases reply.tape? traceId with
  | none => exact h
  | some b => exact m.readBytes_writeFile path b

theorem readBytes_leave_of_ne (reply : Reply) (h : path ≠ other)
    (traceId : String) (m : MemoryFiles) :
    (reply.leave other traceId m).readBytes path = m.readBytes path := by
  unfold leave
  cases reply.tape? traceId with
  | none => rfl
  | some b => exact m.readBytes_writeFile_of_ne h b

end Reply

/-! ### Calls -/

namespace Scripted

/-- There is a reply for the next call: one of the script, or the last one that was given. -/
def HasReply (s : Scripted) : Prop :=
  s.replies ≠ [] ∨ s.last.isSome = true

/-- The reply to the call after `k` others: one of the script, or the last one. -/
def reply? (s : Scripted) (k : Nat) : Option Reply :=
  s.replies[k]? <|> s.replies.getLast? <|> s.last

def afterReply (s : Scripted) : Scripted :=
  { s with replies := s.replies.tail, last := s.replies.head? <|> s.last }

variable {d : Disk} {s : Scripted}

theorem HasReply.exists_reply? (h : s.HasReply) : ∃ reply, s.reply? 0 = some reply := by
  cases hreplies : s.replies with
  | cons reply rest => exact ⟨reply, by simp [reply?, hreplies]⟩
  | nil =>
    obtain ⟨reply, hlast⟩ := Option.isSome_iff_exists.mp (h.resolve_left (absurd hreplies))
    exact ⟨reply, by simp [reply?, hreplies, hlast]⟩

theorem HasReply.afterReply (h : s.HasReply) : s.afterReply.HasReply := by
  obtain ⟨reply, hreply⟩ := h.exists_reply?
  refine .inr ?_
  cases hreplies : s.replies <;> simp_all [Scripted.afterReply, reply?]

theorem reply?_afterReply (s : Scripted) (k : Nat) : s.afterReply.reply? k = s.reply? (k + 1) := by
  cases hreplies : s.replies with
  | nil => simp [reply?, afterReply, hreplies]
  | cons reply rest =>
    cases rest with
    | nil => simp [reply?, afterReply, hreplies]
    | cons next rest =>
      have hlast := List.getLast?_eq_some_getLast (List.cons_ne_nil next rest)
      simp [reply?, afterReply, hreplies, List.getLast?_cons_cons, hlast]

theorem result_readTape {tape : InputTape}
    (hfile : s.memory.readBytes path = some (Bytes.ofText tape.toValue.compact)) :
    (readTape path).result (d, s) =
      (tape.reread?.elim (.error (.within .parseTape (.fault .malformed))) .ok, (d, s)) := by
  have hread : ((Bytes.ofText tape.toValue.compact).text?.bind Json.parse?).bind
      InputTape.ofDocument? = tape.reread? := by
    rw [Bytes.text?_ofText, Option.bind_some, InputTape.reread?]
  simp only [readTape, Action.result_ofResult, hfile, hread]
  cases tape.reread? <;> rfl

theorem result_nextReply (s : Scripted) :
    nextReply.result (d, s) = (s.reply? 0).elim (.error (.refusal .noReply), (d, s))
      fun reply => (.ok reply, (d, s.afterReply)) := by
  obtain ⟨memory, modules, replies, last⟩ := s
  rw [nextReply, Action.result_ofResult]
  cases replies with
  | cons reply rest => rfl
  | nil => cases last <;> rfl

variable {call : Invocation} {tape : InputTape}

def remembering (s : Scripted) (call : Invocation) (tape : InputTape) : Scripted :=
  { s with calls := s.calls ++ [{ module := call.module, tape, config := call.config }] }

def answered (s : Scripted) (call : Invocation) (tape : InputTape) (reply : Reply) : Scripted :=
  { (s.remembering call tape).afterReply with
    memory := reply.leave call.outputTape tape.traceId s.memory }

section

variable (htape : (readTape call.inputTape).result (d, s) = (.ok tape, (d, s)))
include htape

theorem result_invoke :
    (invoke call).result (d, s) = (nextReply >>= fun reply => perform call tape reply >>=
      fun ending => pure (ending, 0)).result (d, s.remembering call tape) := by
  rw [invoke, Action.result_bind_of_ok htape]
  rfl

theorem result_invoke_of_silence (hreply : s.reply? 0 = none) : (invoke call).result (d, s) =
      (.error (.refusal .noReply), (d, s.remembering call tape)) := by
  have hnone : (s.remembering call tape).reply? 0 = none := hreply
  rw [result_invoke htape, Action.result_bind, result_nextReply, hnone]
  rfl

theorem result_invoke_of_reply (hreply : s.reply? 0 = some reply) : (invoke call).result (d, s) =
      (.ok (reply.ending, 0), (d, s.answered call tape reply)) := by
  have hsome : (s.remembering call tape).reply? 0 = some reply := hreply
  rw [result_invoke htape, Action.result_bind, result_nextReply, hsome]
  cases reply <;> rfl

end

end Scripted

end Sandbox

end AgentChain
