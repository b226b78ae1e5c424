import AgentChain.Proofs.Engine.ScriptedStep
import AgentChain.Proofs.FileTree.Twins
import AgentChain.Proofs.Json.Returned
import AgentChain.Proofs.Sandbox.Native
import AgentChain.Proofs.Tape

/-!
# One step in a native sandbox

The tapes of a native sandbox are files of the host. Between the writing of the input tape and the
call of the agent an event is logged, and an event log may be any file: the line of the event may
have come to the end of the tape, or stand in its place. A tape with something after its document is
not read, and an event is not a tape. So an agent that gets to answer was given the task of its
step, and its answer is the document that is judged.
-/

namespace AgentChain

open Bytes (ofText)

/-! ### Lines that are added -/

/-- What can be found where a text was left, after a line was added to some files. -/
inductive Trailed (text line : String) : Bytes → Prop
  | text : Trailed text line (ofText text)
  | line : Trailed text line (ofText line)
  | more {b : Bytes} (h : Trailed text line b) : Trailed text line (b ++ ofText line)

theorem Trailed.exists_text {text line b} (h : Trailed text line b) :
    ∃ t, b = ofText t ∧ (t = text ∨ t = line ∨
      ∃ rest, t = text ++ (line ++ rest) ∨ t = line ++ (line ++ rest)) := by
  induction h with
  | text => exact ⟨text, rfl, .inl rfl⟩
  | line => exact ⟨line, rfl, .inr (.inl rfl)⟩
  | more _ ih =>
    obtain ⟨t, rfl, ht⟩ := ih
    refine ⟨t ++ line, (Bytes.ofText_append t line).symm, .inr (.inr ?_)⟩
    obtain rfl | rfl | ⟨rest, rfl | rfl⟩ := ht
    · exact ⟨"", .inl (by rw [String.append_empty])⟩
    · exact ⟨"", .inr (by rw [String.append_empty])⟩
    · exact ⟨rest ++ line, .inl (by simp only [String.append_assoc])⟩
    · exact ⟨rest ++ line, .inr (by simp only [String.append_assoc])⟩

section Logs

variable {r : Route} {text : String}

theorem World.whole_reporting {w : World} (h : w.disk.Whole) (e : Event) :
    (w.reporting e).disk.Whole :=
  moves_reporting (Action.frame_keeps Disk.Whole) w e (fun _ _ _ _ hd h => h.append hd) h

theorem trailed_append {d d' : Disk} (h : d.Whole)
    (hold : ∀ b, d.readBytes r = .ok b → Trailed text line b)
    (hd : d.append path (ofText line) = .ok d') (hb : d'.readBytes r = .ok b) :
    Trailed text line b := by
  obtain hb | ⟨b', hb', rfl⟩ | rfl := h.readBytes_of_append hd hb
  · exact hold b hb
  · exact (hold b' hb').more
  · exact .line

theorem World.trailed_reporting {w : World} (h : w.disk.Whole) (e : Event)
    (hold : ∀ b, w.disk.readBytes r = .ok b →
      Trailed text ({ e with timestamp := w.clock.millis } : Event).line b) :
    ∀ b, (w.reporting e).disk.readBytes r = .ok b →
      Trailed text ({ e with timestamp := w.clock.millis } : Event).line b :=
  (moves_reporting (Action.frame_keeps fun d : Disk => d.Whole ∧ ∀ b, d.readBytes r = .ok b →
    Trailed text ({ e with timestamp := w.clock.millis } : Event).line b) w e
    (fun _ _ _ _ hd h => ⟨h.1.append hd, fun _ => trailed_append h.1 h.2 hd⟩) ⟨h, hold⟩).2

end Logs

/-! ### The tape that is read -/

theorem Event.exists_line (e : Event) : ∃ rest, e.line = String.ofList ('\x7b' :: rest) := by
  have hchars : e.line = String.ofList (e.toValue.compactChars ++ ['\n']) := by
    rw [line, Json.Value.compact, String.ofList_append]
  rw [hchars, toValue, Json.Value.compactChars]
  exact ⟨_, rfl⟩

theorem Json.parse?_append_line (v : Json.Value)
    (hblanks : ∀ c ∈ blanks, isSpace c) (e : Event) (rest : String) :
    parse? (v.compact ++ (String.ofList blanks ++ (e.line ++ rest))) = none := by
  obtain ⟨cs, hcs⟩ := e.exists_line
  have htext : v.compact ++ (String.ofList blanks ++ (e.line ++ rest)) =
      String.ofList (v.compactChars ++ (blanks ++ '\x7b' :: (cs ++ rest.toList))) := by
    rw [Value.compact, hcs, ← String.ofList_toList (s := rest)]
    simp only [← String.ofList_append, String.toList_ofList, List.cons_append]
  rw [htext, parse?_of_trailing v hblanks]

namespace InputTape

theorem read_line (e : Event) : (Json.parse? e.line).bind ofDocument? = none := by
  have htext : e.line = String.ofList (e.toValue.spaced .none 0 ++ ['\n']) := by
    rw [Event.line, Json.Value.compact, Json.Value.spaced_none, String.ofList_append]
  rw [htext, Json.parse?_spaced .none _ (by simp [Json.isSpace])]
  rfl

theorem reread?_of_trailed {tape t : InputTape} {e : Event} {b : Bytes}
    (h : Trailed tape.toValue.compact e.line b)
    (ht : (b.text?.bind Json.parse?).bind ofDocument? = some t) : tape.reread? = some t := by
  obtain ⟨text, rfl, htext⟩ := h.exists_text
  rw [Bytes.text?_ofText, Option.bind_some] at ht
  obtain rfl | rfl | ⟨rest, rfl | rfl⟩ := htext
  · exact ht
  · rw [read_line] at ht
    cases ht
  · have hnone := Json.parse?_append_line tape.toValue (List.forall_mem_nil _) e rest
    rw [String.ofList_nil, String.empty_append] at hnone
    rw [hnone] at ht
    cases ht
  · have hblank : ∀ c ∈ ['\n'], Json.isSpace c := by simp [Json.isSpace]
    have hline : e.line = e.toValue.compact ++ String.ofList ['\n'] := rfl
    have hnone := Json.parse?_append_line e.toValue hblank e rest
    rw [← String.append_assoc, ← hline] at hnone
    rw [hnone] at ht
    cases ht

end InputTape

/-! ### The operations of the sandbox -/

namespace Sandbox.Native

open AgentChain.Action Disk
open AgentChain.Path (under)

variable {s t : Disk × Native} {names : List String} {path : String} {c : Bytes}

theorem names_inputTape : Names ["tmp", "input_tape.json"] inputTape :=
  ⟨by simp, by decide, by decide⟩

theorem names_outputTape : Names ["tmp", "output_tape.json"] outputTape :=
  ⟨by simp, by decide, by decide⟩

theorem result_readBytes (hnames : Names names path) (s : Disk × Native) :
    (readBytes path).result s = (.ok (s.1.readBytes (under s.2.root names)).toOption, s) := by
  rw [readBytes, atPath, result_ofResult, hostPath_eq hnames]
  dsimp only
  cases hread : s.1.readBytes (under s.2.root names) with
  | error fault =>
    have hfile : s.1.isFile (under s.2.root names) = false := by
      simpa [hread] using (isFile_iff (d := s.1) (r := under s.2.root names)).not
    rw [result_bind_of_ok (OnDisk.result_look _ s.1), hfile]
    rfl
  | ok c =>
    have hfile : s.1.isFile (under s.2.root names) := isFile_iff.2 ⟨c, hread⟩
    have hbytes : (OnDisk.readBytes (under s.2.root names)).result s.1 = (.ok c, s.1) :=
      result_within_eq_ok.2 (OnDisk.result_read_eq_ok.2 ⟨hread, rfl⟩)
    rw [result_bind_of_ok (OnDisk.result_look _ s.1), hfile, if_pos rfl, result_bind_of_ok hbytes]
    rfl

theorem writeFile_eq_ok (hnames : Names names path) (hd : s.1.Whole)
    (h : (writeFile path c).result s = (.ok (), t)) :
    t.2 = s.2 ∧ t.1.Whole ∧ t.1.readBytes (under s.2.root names) = .ok c := by
  obtain ⟨hres, hstate⟩ := result_atPath_eq_ok hnames h
  obtain ⟨⟨⟩, d, hparent, hres⟩ := result_bind_eq_ok.1 hres
  have hwrite := OnDisk.result_change_eq_ok.1 (result_within_eq_ok.1 hres)
  have hd' : d.Whole := (OnDisk.moves_createParent StaysWhole.frame
    (fun _ _ _ hmake hwhole => hwhole.createDirectory hmake) _).of_result hparent hd
  exact ⟨hstate, hd'.writeFile hwrite, hd'.sound.readBytes_writeFile hwrite⟩

theorem removeFile_eq_ok (hnames : Names names path) (hd : s.1.Whole)
    (h : (removeFile path).result s = (.ok (), t)) :
    t.2 = s.2 ∧ t.1.Whole ∧ ∀ {r : Route} {b : Bytes}, t.1.readBytes r = .ok b →
      s.1.readBytes r = .ok b := by
  obtain ⟨hres, hstate⟩ := result_atPath_eq_ok hnames h
  have hremove := OnDisk.result_change_eq_ok.1 (result_within_eq_ok.1 hres)
  refine ⟨hstate, ?_⟩
  split at hremove
  · rw [← Except.ok.inj hremove]
    exact ⟨hd, id⟩
  · exact ⟨hd.removeFile hremove, hd.readBytes_of_removeFile hremove⟩

theorem readTape_eq_ok (hnames : Names names path) (h : (readTape path).result s = (.ok tape, t)) :
    t = s ∧ ∃ raw, s.1.readBytes (under s.2.root names) = .ok raw ∧
      (raw.text?.bind Json.parse?).bind InputTape.ofDocument? = some tape := by
  rw [readTape, result_bind_of_ok (result_readBytes hnames s)] at h
  cases hraw : s.1.readBytes (under s.2.root names) with
  | error fault =>
    rw [hraw] at h
    cases h
  | ok raw =>
    rw [hraw] at h
    dsimp only [Except.toOption] at h
    split at h
    · next hread =>
      cases h
      exact ⟨rfl, raw, rfl, hread⟩
    · cases h

/-- Everything that a call can come to when it gives a value. A call that reaches its limit leaves
nothing, and neither does an agent that fails. -/
theorem invoke_cases (hnames : Names names call.inputTape)
    (h : (invoke call).result s = (.ok (ending, took), t)) :
    ∃ program tape raw, s.2.modules.get? call.module = some program ∧
      s.1.readBytes (under s.2.root names) = .ok raw ∧
      (raw.text?.bind Json.parse?).bind InputTape.ofDocument? = some tape ∧
      ((exceeds (program.run tape.payload call.config).sleptMs call.timeoutMs ∧
          ending = .timedOut ∧ t = s) ∨
        (∃ fault, exceeds (program.run tape.payload call.config).sleptMs call.timeoutMs = false ∧
          (program.run tape.payload call.config).answer = .error fault ∧
          ending = .failed fault.message ∧ t = s) ∨
        ∃ output, exceeds (program.run tape.payload call.config).sleptMs call.timeoutMs = false ∧
          (program.run tape.payload call.config).answer = .ok output ∧ ending = .finished ∧
          (writeFile call.outputTape (ofText (output.toTape tape.traceId).compact)).result s =
            (.ok (), t)) := by
  obtain ⟨program, s₁, hprogram, hknown⟩ := result_bind_eq_ok.1 h
  obtain ⟨hmodule, rfl⟩ : s.2.modules.get? call.module = some program ∧ s₁ = s := by
    rw [moduleOf, result_ofResult] at hprogram
    split at hprogram
    · next hget =>
      cases hprogram
      exact ⟨hget, rfl⟩
    · cases hprogram
  obtain ⟨⟨⟩, s₂, hhost, hhosted⟩ := result_bind_eq_ok.1 hknown
  obtain rfl : s₁ = s₂ := congrArg Prod.snd hhost
  obtain ⟨tape, s₃, htape, hturn⟩ := result_bind_eq_ok.1 hhosted
  obtain ⟨rfl, raw, hraw, hread⟩ := readTape_eq_ok hnames htape
  refine ⟨program, tape, raw, hmodule, hraw, hread, ?_⟩
  dsimp only at hturn
  split at hturn
  · next hexceeds =>
    cases hturn
    exact .inl ⟨hexceeds, rfl, rfl⟩
  · next hwithin =>
    rw [Bool.not_eq_true] at hwithin
    split at hturn
    · next output hanswer =>
      obtain ⟨⟨⟩, s₄, hwrite, hend⟩ := result_bind_eq_ok.1 hturn
      cases hend
      exact .inr (.inr ⟨output, hwithin, hanswer, rfl, hwrite⟩)
    · next fault hanswer =>
      cases hturn
      exact .inr (.inl ⟨fault, hwithin, hanswer, rfl, rfl⟩)

end Sandbox.Native

/-! ### Answers that are written and read -/

theorem Agent.Output.traceId?_of_returns {output : Output}
    (h : (output.toTape traceId).Returns v) : OutputTape.traceId? v = some traceId := by
  have hmember : ∃ u, v.member? "trace_id" = some u ∧ (Json.Value.string traceId).Returns u := by
    cases output with
    | complete result => exact h.exists_member? (by simp) rfl
    | delegate progress agent input config => exact h.exists_member? (by simp) rfl
  obtain ⟨u, hu, hreturns⟩ := hmember
  rw [OutputTape.traceId?, hu, hreturns.eq_string]
  rfl

/-! ### Steps -/

namespace Engine

open Sandbox (Native)
open AgentChain.Path (under)

variable {setting : Setting Native} {n : UInt32} {task : Task} {s t : Session Native}

/-- A session in which the next step can be made like in another: the disk is whole, and the sandbox
and the supply of identifiers are the same. -/
structure Resumes (s t : Session Native) : Prop where
  whole : t.world.disk.Whole
  state : t.state = s.state
  supply : t.world.supply = s.world.supply

theorem Resumes.refl (h : s.world.disk.Whole) : Resumes s s :=
  ⟨h, rfl, rfl⟩

theorem Resumes.trans (h : Resumes s t) (h' : Resumes t u) : Resumes s u :=
  ⟨h'.whole, h'.state.trans h.state, h'.supply.trans h.supply⟩

theorem Resumes.reporting (h : Resumes s t) (e : Event) : Resumes s (t.reporting e) :=
  ⟨World.whole_reporting h.whole e, h.state, h.supply⟩

theorem Resumes.foldl_reporting (h : Resumes s t) (events : List Event) :
    Resumes s (events.foldl Session.reporting t) := by
  induction events generalizing t with
  | nil => exact h
  | cons e events ih => exact ih (h.reporting e)

def ruling (setting : Setting Native) (n : UInt32) (agent traceId : String) (elapsedMs : UInt64) :
    Except Agent.Fault Agent.Output → Result
  | .error fault =>
    .abort (recordOf n agent traceId elapsedMs .failed none)
      (.invalidResponse n ("agent failed: " ++ fault.message))
  | .ok output =>
    match documentOf (some (ofText (output.toTape traceId).compact)) with
    | .error reason =>
      .abort (recordOf n agent traceId elapsedMs .failed none) (.invalidResponse n reason)
    | .ok v => (judge setting n agent traceId (recordOf n agent traceId elapsedMs) v).1

/-- Everything that an answer can lead to: its tape comes back with the trace id, so it is refused,
or it gives what its members make up. -/
theorem ruling_cases (setting : Setting Native) (n : UInt32) (agent traceId : String)
    (elapsedMs : UInt64) (output : Agent.Output) :
    (∃ record message, ruling setting n agent traceId elapsedMs (.ok output) =
      .abort (some record) (.invalidResponse n message)) ∨
    (∃ v result progress record, (output.toTape traceId).Returns v ∧
      OutputTape.Gives v (.complete result progress) ∧
      ruling setting n agent traceId elapsedMs (.ok output) = .complete record result) ∨
    ∃ v progress next record, (output.toTape traceId).Returns v ∧
      OutputTape.Gives v (.pending progress next) ∧
      (ruling setting n agent traceId elapsedMs (.ok output) =
          .abort (some record) (.unknownAgent n next.agent) ∨
        (setting.module? next.agent).isSome ∧
          ruling setting n agent traceId elapsedMs (.ok output) =
            .pending record progress next) := by
  cases hdocument : documentOf (some (ofText (output.toTape traceId).compact)) with
  | error reason =>
    exact .inl ⟨recordOf n agent traceId elapsedMs .failed none, reason, by rw [ruling, hdocument]⟩
  | ok v =>
    have hruling : ruling setting n agent traceId elapsedMs (.ok output) =
        (judge setting n agent traceId (recordOf n agent traceId elapsedMs) v).1 := by
      rw [ruling, hdocument]
    obtain ⟨raw, text, hraw, htext, hread⟩ := documentOf_eq_ok hdocument
    cases hraw
    rw [Bytes.text?_ofText] at htext
    cases htext
    have hreturns := Json.Value.returns_of_read? hread
    have hid := Agent.Output.traceId?_of_returns hreturns
    rw [hruling]
    fun_cases judge with
    | case1 _ hcheck => cases hcheck.symm.trans (checkTrace_eq_ok_iff.2 hid)
    | case2 => exact .inl ⟨_, _, rfl⟩
    | case3 _ result progress hanswer =>
      exact .inr (.inl ⟨v, result, progress, _, hreturns,
        (OutputTape.interpret_eq_ok_iff.1 hanswer).2, rfl⟩)
    | case4 _ progress next hanswer =>
      exact .inr (.inr ⟨v, progress, next, _, hreturns,
        (OutputTape.interpret_eq_ok_iff.1 hanswer).2, .inl rfl⟩)
    | case5 _ progress next hanswer _ _ hmodule =>
      exact .inr (.inr ⟨v, progress, next, _, hreturns,
        (OutputTape.interpret_eq_ok_iff.1 hanswer).2, .inr ⟨by simp [hmodule], rfl⟩⟩)

theorem result_readOutput_native (s : Session Native) :
    (readOutput Sandbox.native).result s =
      (.ok (documentOf (s.world.disk.readBytes
        (under s.state.root ["tmp", "output_tape.json"])).toOption), s) := by
  have hbytes : (Session.onState (Sandbox.native.readBytes Sandbox.outputTape)).result s =
      (.ok (s.world.disk.readBytes (under s.state.root ["tmp", "output_tape.json"])).toOption, s) :=
    Session.result_onState (Native.result_readBytes Native.names_outputTape _)
  rw [readOutput, Action.result_bind, Action.result_attempt, hbytes]
  cases (s.world.disk.readBytes (under s.state.root ["tmp", "output_tape.json"])).toOption with
  | none => rfl
  | some raw => cases hread : raw.text?.bind Json.read? <;> simp only [documentOf, hread] <;> rfl

/-- After a task is handed over, what can be read from the input tape is the tape of the task with
the line of an event after it, if not such a line alone. -/
theorem trailed_of_handOver (hbox : setting.box = .native) (hd : s.world.disk.Whole)
    {traceId : String} (h : (handOver setting n task).result s = (.ok traceId, t)) :
    traceId = freshId s ∧ Resumes s t ∧ ∃ e : Event, ∀ b,
      t.world.disk.readBytes (under s.state.root ["tmp", "input_tape.json"]) = .ok b →
      Trailed (inputOf task s).toValue.compact e.line b := by
  obtain ⟨rfl, written, cleared, hwrite, hclear, rfl⟩ := handOver_eq_ok_iff.1 h
  rw [hbox] at hwrite hclear
  obtain ⟨hwrite, hworld⟩ := Session.of_result_onState hwrite
  obtain ⟨hclear, hworld'⟩ := Session.of_result_onState hclear
  obtain ⟨hstate, hwhole, hread⟩ := Native.writeFile_eq_ok Native.names_inputTape hd hwrite
  obtain ⟨hstate', hwhole', hback⟩ := Native.removeFile_eq_ok Native.names_outputTape hwhole hclear
  have hresumes : Resumes s cleared := ⟨hwhole', hstate'.trans hstate, by rw [hworld', hworld]; rfl⟩
  refine ⟨rfl, hresumes.reporting _, _, fun b hb =>
    World.trailed_reporting hwhole' _ (fun c hc => ?_) b hb⟩
  obtain rfl := Except.ok.inj (hread.symm.trans (hback hc))
  exact .text

/-- Everything that a step can come to when it gives a value: the program of the agent was run on what
comes back of the task. If it reached the limit the step ends for that, and otherwise the answer is
judged. -/
theorem native_step_outcome (hbox : setting.box = .native) (hd : s.world.disk.Whole)
    (hmodule : setting.module? task.agent = some module)
    (h : (step setting n task).result s = (.ok result, t)) :
    Resumes s t ∧ ∃ program tape elapsedMs, s.state.modules.get? module = some program ∧
      (inputOf task s).reread? = some tape ∧
      ((Native.exceeds (program.run tape.payload task.config).sleptMs setting.timeoutMs ∧
          result = .abort (recordOf n task.agent (freshId s) elapsedMs .failed none)
            (.stepTimeout n task.agent ((setting.timeoutMs.map saturated).getD 0))) ∨
        (Native.exceeds (program.run tape.payload task.config).sleptMs setting.timeoutMs = false ∧
          result = ruling setting n task.agent (freshId s) elapsedMs
            (program.run tape.payload task.config).answer)) := by
  obtain ⟨hnone, -, -⟩ | ⟨module', traceId, called, ending, elapsedMs, returned, hmodule', hhanded,
    hcall, hfollowed⟩ := step_cases h
  · cases hmodule.symm.trans hnone
  obtain rfl := Option.some.inj (hmodule.symm.trans hmodule')
  obtain ⟨rfl, hresumes, e, htrailed⟩ := trailed_of_handOver hbox hd hhanded
  rw [call, hbox] at hcall
  obtain ⟨hcall, hworld⟩ := Session.of_result_onState hcall
  obtain ⟨program, tape, raw, hprogram, hraw, hread, houtcome⟩ :=
    Native.invoke_cases Native.names_inputTape hcall
  rw [hresumes.state] at hprogram hraw
  have htape := InputTape.reread?_of_trailed (htrailed raw hraw) hread
  have hid : tape.traceId = freshId s := (InputTape.of_reread? htape).2.1
  have hsupply : returned.world.supply = s.world.supply := by
    rw [hworld]
    exact hresumes.supply
  have hsame : (returned.world.disk, returned.state) = (called.world.disk, called.state) →
      Resumes s returned := by
    intro heq
    obtain ⟨hdisk, hstate⟩ := Prod.mk.inj heq
    exact ⟨hdisk ▸ hresumes.whole, hstate.trans hresumes.state, hsupply⟩
  obtain ⟨hexceeds, rfl, heq⟩ | ⟨fault, hwithin, hfault, rfl, heq⟩ |
    ⟨output, hwithin, houtput, rfl, hwrite⟩ := houtcome
  · cases hfollowed
    exact ⟨hsame heq, program, tape, elapsedMs, hprogram, htape, .inl ⟨hexceeds, rfl⟩⟩
  · cases hfollowed
    refine ⟨hsame heq, program, tape, elapsedMs, hprogram, htape, .inr ⟨hwithin, ?_⟩⟩
    rw [hfault]
    rfl
  · suffices hruled : Resumes s t ∧ result = ruling setting n task.agent (freshId s) elapsedMs
        (.ok output) from
      ⟨hruled.1, program, tape, elapsedMs, hprogram, htape, .inr ⟨hwithin, houtput ▸ hruled.2⟩⟩
    rw [hid] at hwrite
    obtain ⟨hstate, hwhole, hleft⟩ :=
      Native.writeFile_eq_ok Native.names_outputTape hresumes.whole hwrite
    have hreturned : Resumes s returned := ⟨hwhole, hstate.trans hresumes.state, hsupply⟩
    have hdocument : (readOutput Sandbox.native).result returned = (.ok (documentOf (some
        (ofText (output.toTape (freshId s)).compact))), returned) := by
      rw [result_readOutput_native, show returned.state = called.state from hstate, hleft]
      rfl
    cases hfollowed with
    | unreadable hread =>
      rw [hbox, hdocument] at hread
      obtain ⟨herror, rfl⟩ := Prod.mk.inj hread
      refine ⟨hreturned, ?_⟩
      rw [ruling, Except.ok.inj herror]
    | judged hread =>
      rw [hbox, hdocument] at hread
      obtain ⟨hok, rfl⟩ := Prod.mk.inj hread
      refine ⟨hreturned.foldl_reporting _, ?_⟩
      rw [ruling, Except.ok.inj hok]

/-- Everything that a step without a limit can come to when it gives a value: the program of the
agent was run on what comes back of the task, and its answer is judged. -/
theorem native_step_cases (hbox : setting.box = .native) (htime : setting.timeoutMs = none)
    (hd : s.world.disk.Whole) (hmodule : setting.module? task.agent = some module)
    (h : (step setting n task).result s = (.ok result, t)) :
    Resumes s t ∧ ∃ program tape elapsedMs, s.state.modules.get? module = some program ∧
      (inputOf task s).reread? = some tape ∧
      result = ruling setting n task.agent (freshId s) elapsedMs
        (program.run tape.payload task.config).answer := by
  obtain ⟨hresumes, program, tape, elapsedMs, hprogram, htape, hruled⟩ :=
    native_step_outcome hbox hd hmodule h
  rw [htime] at hruled
  obtain ⟨hexceeds, -⟩ | ⟨-, hresult⟩ := hruled
  · cases hexceeds
  · exact ⟨hresumes, program, tape, elapsedMs, hprogram, htape, hresult⟩

end Engine

end AgentChain
