import AgentChain.Proofs.Document
import AgentChain.Proofs.FileTree.Alike
import AgentChain.Proofs.FileTree.Furnished

/-!
# Event logs that are read back

An event log is a file to which every event adds a line. Reading it takes the file apart at its line
ends, so a line must have no line end of its own: in a written value only the characters from the
blank on occur, whatever the texts in it are, since all others are escaped. What is read is then the
list of the events that were written, in their order, through however many logs that were opened
under the path.

The path has to be free when the log is opened. It is not enough that nothing is found there before,
since opening a log makes its directory, and a path may lead through that directory to a file. A log
to which nothing was written is no file, and reading it fails.
-/

namespace AgentChain

open Bytes (ofText)
open Document (ofValue)

/-! ### The characters of written values -/

namespace Json

def Printed (c : Char) : Prop :=
  0x20 ≤ c.toNat

instance : DecidablePred Printed := fun c =>
  inferInstanceAs (Decidable (0x20 ≤ c.toNat))

theorem printed_hexDigit : ∀ n < 16, Printed (hexDigit n) := by
  decide

theorem printed_of_mem_escaped (h : c' ∈ escaped c) : Printed c' := by
  unfold escaped at h
  split at h
  · fin_cases h <;> decide
  split at h
  · fin_cases h <;> decide
  split at h
  next hlow =>
    split at h
    case h_6 =>
      simp only [List.mem_cons, List.not_mem_nil, or_false] at h
      rcases h with rfl | rfl | rfl | rfl | rfl | rfl
      · decide
      · decide
      · decide
      · decide
      · exact printed_hexDigit _ (by omega)
      · exact printed_hexDigit _ (by omega)
    all_goals fin_cases h <;> decide
  next hhigh =>
    obtain rfl := List.mem_singleton.1 h
    exact Nat.not_lt.1 hhigh

theorem printed_of_mem_quoted (h : c ∈ quoted s) : Printed c := by
  rw [quoted, List.mem_cons, List.mem_append, List.mem_singleton] at h
  rcases h with rfl | h | rfl
  · decide
  · obtain ⟨c', -, hc⟩ := List.mem_flatMap.1 h
    exact printed_of_mem_escaped hc
  · decide

theorem printed_of_mem_toDigits (h : c ∈ Nat.toDigits 10 n) : Printed c := by
  have hdigit : c.isDigit := Decimal.isDigit_of_mem_toDigits h
  rw [Char.isDigit, Bool.and_eq_true, decide_eq_true_iff] at hdigit
  exact Nat.le_trans (by decide) hdigit.1

namespace Value

mutual

theorem printed_of_mem_compactChars (v : Value) (hv : v.Integral)
    (h : c ∈ v.compactChars) : Printed c := by
  match v with
  | .null | .bool true | .bool false =>
    fin_cases h <;> decide
  | .number (.natural n) => exact printed_of_mem_toDigits h
  | .number (.negative n) =>
    rcases List.mem_cons.1 h with rfl | h
    · decide
    · exact printed_of_mem_toDigits h
  | .number (.float x hx) => exact hv.elim
  | .string s => exact printed_of_mem_quoted h
  | .array items =>
    rw [compactChars, List.mem_cons, List.mem_append, List.mem_singleton] at h
    rcases h with rfl | h | rfl
    · decide
    · exact printed_of_mem_compactItems items hv h
    · decide
  | .object members =>
    rw [compactChars, List.mem_cons, List.mem_append, List.mem_singleton] at h
    rcases h with rfl | h | rfl
    · decide
    · exact printed_of_mem_compactMembers members hv h
    · decide

theorem printed_of_mem_compactItems (items : List Value) (hv : itemsIntegral items)
    (h : c ∈ compactItems items) : Printed c := by
  match items with
  | [] => cases h
  | [v] => exact printed_of_mem_compactChars v hv.1 h
  | v :: w :: rest =>
    rw [compactItems, List.mem_append, List.mem_cons] at h
    rcases h with h | rfl | h
    · exact printed_of_mem_compactChars v hv.1 h
    · decide
    · exact printed_of_mem_compactItems (w :: rest) hv.2 h

theorem printed_of_mem_compactMembers (members : List (String × Value))
    (hv : membersIntegral members) (h : c ∈ compactMembers members) : Printed c := by
  match members with
  | [] => cases h
  | [(name, v)] =>
    rw [compactMembers, List.mem_append, List.mem_cons] at h
    rcases h with h | rfl | h
    · exact printed_of_mem_quoted h
    · decide
    · exact printed_of_mem_compactChars v hv.1 h
  | (name, v) :: m :: rest =>
    rw [compactMembers, List.mem_append, List.mem_cons, List.mem_append, List.mem_cons] at h
    rcases h with h | rfl | h | rfl | h
    · exact printed_of_mem_quoted h
    · decide
    · exact printed_of_mem_compactChars v hv.1 h
    · decide
    · exact printed_of_mem_compactMembers (m :: rest) hv.2 h

end

end Value

end Json

/-! ### Lines -/

namespace Text

open Json (Printed)

theorem dropReturn_of_not_mem (h : '\r' ∉ line) : dropReturn line = line := by
  unfold dropReturn
  split
  next rest hrest =>
    refine absurd ?_ h
    rw [← List.mem_reverse, hrest]
    exact List.mem_cons_self
  · rfl

theorem linesFrom_append (h : '\n' ∉ cs) (current rest : List Char) :
    linesFrom current (cs ++ '\n' :: rest) =
      dropReturn (current.reverse ++ cs) :: linesFrom [] rest := by
  induction cs generalizing current with
  | nil => rw [List.nil_append, linesFrom, List.append_nil]
  | cons c cs ih =>
    obtain ⟨hc, hcs⟩ := not_or.1 (mt List.mem_cons.2 h)
    rw [List.cons_append, linesFrom, ih hcs]
    · simp
    · rintro rfl
      exact hc rfl

theorem lines_flatMap {α : Type} {f : α → List Char} {items : List α}
    (h : ∀ a ∈ items, ∀ c ∈ f a, Printed c) :
    lines (String.ofList (items.flatMap fun a => f a ++ ['\n'])) =
      items.map fun a => String.ofList (f a) := by
  rw [lines, String.toList_ofList]
  induction items with
  | nil => rfl
  | cons a items ih =>
    have hprinted := h a List.mem_cons_self
    have hnewline : '\n' ∉ f a := fun hc => absurd (hprinted _ hc) (by decide)
    have hreturn : '\r' ∉ f a := fun hc => absurd (hprinted _ hc) (by decide)
    rw [List.flatMap_cons, List.append_assoc, List.singleton_append, linesFrom_append hnewline,
      List.reverse_nil, List.nil_append, dropReturn_of_not_mem hreturn, List.map_cons,
      List.map_cons, ih fun b hb => h b (List.mem_cons_of_mem a hb)]

end Text

/-! ### Lines of events -/

namespace Event

/-- An event that a line keeps: its fields are in order, as a table keeps them, its numbers are
integers, and it is not nested too deeply to be read. -/
structure Loggable (e : Event) : Prop where
  sorted : (Json.Value.object e.fields).Sorted
  integral : (Json.Value.object e.fields).Integral
  shallow : e.toValue.depth ≤ Json.depthLimit

namespace Loggable

variable {e : Event}

theorem integral_toValue (h : e.Loggable) : e.toValue.Integral :=
  ⟨trivial, trivial, trivial, trivial, h.integral, trivial⟩

theorem ofDocument?_toValue (h : e.Loggable) : ofDocument? (ofValue e.toValue) = some e := by
  have hfields : Document.fields? ["timestamp", "stage", "level", "event", "fields"]
      (ofValue e.toValue) = _ :=
    Document.fields?_of_sublist (by decide) (List.Sublist.refl _)
  have htext (text : String) : Document.text? (ofValue (.string text)) = some text := rfl
  have hlevel : Document.choice? Level.alternatives (ofValue (.string e.level.text)) =
      some e.level := by
    cases e.level <;> rfl
  have hmembers : members? (ofValue (.object e.fields)) = some e.fields := by
    have hvalue := Document.value?_ofValue _ h.sorted
    rw [ofValue] at hvalue ⊢
    rw [members?, hvalue]
  rw [ofDocument?, hfields]
  simp [Document.Fields.required?, Document.lookup?_ofMembers, htext, hlevel, hmembers]

theorem parse?_compact (h : e.Loggable) : parse? e.toValue.compact = some e := by
  rw [parse?, Json.parse?_compact, Option.bind_some,
    Json.Value.reread_of_integral _ h.integral_toValue,
    Document.ofValueWithin_of_depth_le _ h.shallow, h.ofDocument?_toValue]

theorem isAllBlank_compact (e : Event) : Text.isAllBlank e.toValue.compact = false := by
  rw [Text.isAllBlank, Json.Value.compact, String.toList_ofList, toValue, Json.Value.compactChars,
    List.all_cons]
  rfl

end Loggable

theorem readLines_compact (h : ∀ e ∈ events, e.Loggable) :
    readLines (events.map fun e => e.toValue.compact) = .ok events := by
  induction events with
  | nil => rfl
  | cons e events ih =>
    rw [List.map_cons, readLines, Loggable.isAllBlank_compact, if_neg (by simp),
      (h e List.mem_cons_self).parse?_compact]
    simp only [ih fun e' he' => h e' (List.mem_cons_of_mem e he')]
    rfl

def logText (events : List Event) : String :=
  String.ofList (events.flatMap fun e => e.toValue.compactChars ++ ['\n'])

theorem ofText_logText_nil : ofText (logText []) = [] :=
  Bytes.ofText_eq_nil_iff.2 rfl

theorem ofText_logText_append (events : List Event) (e : Event) :
    ofText (logText (events ++ [e])) = ofText (logText events) ++ ofText e.line := by
  simp [logText, line, Json.Value.compact, Bytes.ofText_eq]

theorem readLines_lines_logText {events : List Event} (h : ∀ e ∈ events, e.Loggable) :
    readLines (Text.lines (logText events)) = .ok events := by
  rw [logText, Text.lines_flatMap fun e he c hc =>
    Json.Value.printed_of_mem_compactChars _ (h e he).integral_toValue hc]
  exact readLines_compact h

end Event

/-! ### The directory of a log -/

namespace Disk

variable {d d' : Disk} {f : Bool} {l : Nat} {base p : Place} {segs : List Name} {r : Route}

theorem Keeps.walkLinks_of_vacant (hk : d.Keeps d')
    (h : d.walkLinks f l base segs = .ok (.vacant p s)) (hp : d'.get? p = some .directory) :
    d'.walkLinks true l base segs = .ok (.present p .directory) := by
  have hentered : ∀ {q}, q ∉ d.closed → q ∉ d'.closed := fun hq hc => hq (hk.closed _ hc)
  rw [walkLinks_eq_ok_iff] at h
  generalize ht : Target.vacant p s = t at h
  induction h with
  | nil | file | shown => cases ht
  | idle _ ih => rw [walkLinks_idle, ih ht]
  | here entered _ ih => rw [walkLinks_here (hentered entered), ih ht]
  | up entered _ ih => rw [walkLinks_up (hentered entered), ih ht]
  | @vacant l base n _ entered step free within last =>
    cases ht
    -- what follows the last name is a number of slashes
    have hrest : ∀ {rest : List Name}, rest.all List.isEmpty →
        d'.walkLinks true l (base ++ [n]) rest = .ok (.present (base ++ [n]) .directory) := by
      intro rest hrest
      induction rest with
      | nil => exact walkLinks_nil
      | cons m rest ih =>
        rw [List.all_cons, Bool.and_eq_true, List.isEmpty_iff] at hrest
        rw [hrest.1, walkLinks_idle, ih hrest.2]
    rw [walkLinks_step (hentered entered) step, hp]
    exact hrest last
  | down entered step found _ ih =>
    rw [walkLinks_step (hentered entered) step, hk.directory _ found, ih ht]
  | link entered step found _ _ ih =>
    rw [walkLinks_step (hentered entered) step, hk.link _ _ found]
    simpa using ih ht

theorem Sound.resolve_of_createDirectory (hd : d.Sound) (h : d.createDirectory r = .ok d') :
    ∃ p, d.Vacant p ∧ d' = d.put p .directory ∧ d'.resolve true r = .ok (.present p .directory) := by
  obtain ⟨p, s, hres, rfl⟩ := createDirectory_eq_ok h
  have hne := ne_nil_of_resolve hres
  have hfollow := followable_of_resolve hres
  have hvacant := hd.vacant_of_resolve hres
  have hput : (d.put p .directory).get? p = some .directory := by
    rw [get?_put hvacant.ne_nil, if_pos rfl]
  rw [resolve_eq hne hfollow] at hres
  refine ⟨p, hvacant, rfl, ?_⟩
  rw [resolve_eq hne hfollow]
  exact (keeps_put hvacant.ne_nil hvacant.free).walkLinks_of_vacant hres hput

theorem Sound.isDirectory_of_createDirectory (hd : d.Sound) (h : d.createDirectory r = .ok d') :
    d'.isDirectory r := by
  obtain ⟨p, -, -, hfound⟩ := hd.resolve_of_createDirectory h
  rw [isDirectory, follow?, hfound]

end Disk

namespace Disk

variable {d d' : Disk} {r : Route} {a : String} {b c : Bytes}

/-- The directory of a path is there, or the path has none of its own. -/
def HasDirectory (d : Disk) (a : String) : Prop :=
  (a : Route).isEmpty = true ∨ d.isDirectory a = true

theorem Keeps.hasDirectory (hk : d.Keeps d') (hhome : d'.home = d.home) (h : d.HasDirectory a) :
    d'.HasDirectory a :=
  h.imp_right (hk.isDirectory hhome)

theorem Sound.hasDirectory_of_createDirectories (hd : d.Sound)
    (h : d.createDirectories a = (.ok (), d')) : d'.HasDirectory a := by
  by_cases hempty : (a : Route).isEmpty
  · exact .inl hempty
  rcases createDirectories_eq_ok hempty hd h with hdir | ⟨d₀, hd₀, -, hmake⟩
  · exact .inr hdir
  · exact .inr (hd₀.isDirectory_of_createDirectory hmake)

theorem HasDirectory.createDirectories (h : d.HasDirectory a) :
    d.createDirectories a = (.ok (), d) := by
  rcases h with hempty | hdir
  · obtain ⟨rest, hrest⟩ := (a : Route).exists_ancestors_eq_cons
    rw [Disk.createDirectories, hrest, createChain, if_pos hempty]
  · obtain ⟨P, hres⟩ := exists_resolve_of_isDirectory hdir
    exact createDirectories_of_isDirectory (leadsTo_of_resolve hres) hdir

/-! ### Adding to a file -/

theorem append_of_readBytes (hd : d.Sound) (h : d.readBytes r = .ok b) :
    d.append r c = d.writeFile r (b ++ c) := by
  obtain ⟨p, hres⟩ := readBytes_eq_ok.1 h
  have hget : d.get? p = some (.file b) := hd.get?_of_resolve hres (by simp)
  rw [append, writeFile, writePlace, hres]
  simp only [Except.map, hget]

theorem append_of_absent (hd : d.Sound) (h : d.exists? r = false) :
    d.append r c = d.writeFile r c := by
  rw [append, writeFile, writePlace]
  rcases hres : d.resolve true r with fault | ⟨p, e⟩ | ⟨p, s⟩
  · rfl
  · simp [exists?, follow?, hres] at h
  · have hfree : d.get? p = none := (hd.vacant_of_resolve hres).free
    cases s with
    | true => rfl
    | false => simp only [Except.map, hfree]

theorem readText_of_absent (h : d.exists? r = false) : d.readText r ≠ .ok t := by
  intro ht
  obtain ⟨p, hres⟩ := readBytes_eq_ok.1 (readText_eq_ok.1 ht)
  simp [exists?, follow?, hres] at h

end Disk

theorem OnDisk.result_makeDirectories (path : Route) (d : Disk) :
    (makeDirectories path).result d =
      ((d.createDirectories path).1.mapError .fault, (d.createDirectories path).2) :=
  rfl

namespace World

open AgentChain.Action

variable {w w₁ : World} {path : String}

def HasLogDirectory (path : String) (w : World) : Prop :=
  ∀ directory, Path.parent? path = some directory → w.disk.HasDirectory directory

theorem hasLogDirectory_of_prepareLog (hd : w.disk.Sound)
    (h : (prepareLog path).result w = (.ok (), w₁)) :
    w₁.disk.Sound ∧ w₁.HasLogDirectory path := by
  rw [HasLogDirectory]
  rw [prepareLog] at h
  cases hparent : Path.parent? path with
  | none =>
    rw [hparent] at h
    cases h
    exact ⟨hd, fun _ hdirectory => by cases hdirectory⟩
  | some directory =>
    rw [hparent] at h
    simp only [onDisk, result_onPart, Prod.mk.injEq] at h
    obtain ⟨hmade, rfl⟩ := h
    rw [OnDisk.createDirectoriesFor, result_within, OnDisk.result_makeDirectories] at hmade ⊢
    rw [Disk.mapError_eq_ok, Disk.mapError_eq_ok] at hmade
    refine ⟨(hd.furnished_createDirectories directory).1, ?_⟩
    rintro _ ⟨⟩
    exact hd.hasDirectory_of_createDirectories (Prod.ext hmade rfl)

theorem HasLogDirectory.prepareLog (h : w.HasLogDirectory path) :
    (prepareLog path).result w = (.ok (), w) := by
  rw [World.prepareLog]
  cases hparent : Path.parent? path with
  | none => rfl
  | some directory =>
    have hmade := (h directory hparent).createDirectories
    simp only [onDisk, result_onPart]
    rw [OnDisk.createDirectoriesFor, result_within, OnDisk.result_makeDirectories, hmade]
    rfl

theorem HasLogDirectory.append (h : w.HasLogDirectory path) (hd : w.disk.Sound)
    (hline : w.disk.append path line = .ok w₁.disk) : w₁.HasLogDirectory path := by
  obtain ⟨p, c, hp, hdisk⟩ := Disk.append_eq_ok hline
  have hgrows : w.disk.Grows w₁.disk := hdisk ▸ hd.grows_fill (hd.of_writePlace hp)
  exact fun directory hdirectory => hgrows.keeps.hasDirectory hgrows.home (h directory hdirectory)

end World

/-! ### Logs -/

namespace Event

open AgentChain.Action

variable {path : String} {w w₁ w' : World} {events : List Event} {e : Event}

/-- From a world on, logs are opened under a path, any number of them and at any time, and events
are written to them, all with success. -/
inductive Logged (path : String) (w : World) : List Event → World → Prop
  | opened {w₁ : World} (prepared : (World.prepareLog path).result w = (.ok (), w₁)) :
      Logged path w [] w₁
  | again {events : List Event} {w₁ w₂ : World} (before : Logged path w events w₁)
      (prepared : (World.prepareLog path).result w₁ = (.ok (), w₂)) : Logged path w events w₂
  | written {events : List Event} {w₁ w₂ : World} (e : Event) (before : Logged path w events w₁)
      (line : w₁.disk.append path (ofText e.line) = .ok w₂.disk) :
      Logged path w (events ++ [e]) w₂

theorem Logged.reporting (h : Logged path w events w₁) (hlogs : w₁.logs = [path])
    (hline : w₁.disk.append path
      (ofText { e with timestamp := w₁.clock.millis : Event }.line) = .ok d) :
    Logged path w (events ++ [{ e with timestamp := w₁.clock.millis }]) (w₁.reporting e) := by
  refine .written _ h ?_
  rw [World.reporting, hlogs, List.foldl_cons, List.foldl_nil, World.appendLine, hline]

/-- What is found of a log under its path. -/
structure Recorded (path : String) (events : List Event) (w : World) : Prop where
  sound : w.disk.Sound
  directory : w.HasLogDirectory path
  absent : events = [] → w.disk.exists? path = false
  text : events ≠ [] → w.disk.readText path = .ok (logText events)

theorem Recorded.append (h : Recorded path events w)
    (hline : w.disk.append path (ofText e.line) = .ok w₁.disk) :
    Recorded path (events ++ [e]) w₁ where
  sound := h.sound.append hline
  directory := h.directory.append h.sound hline
  absent hnil := by simp at hnil
  text _ := by
    rw [Disk.readText_eq_ok, ofText_logText_append]
    by_cases hevents : events = []
    · subst hevents
      rw [Disk.append_of_absent h.sound (h.absent rfl)] at hline
      rw [h.sound.readBytes_writeFile hline, ofText_logText_nil, List.nil_append]
    · rw [Disk.append_of_readBytes h.sound (Disk.readText_eq_ok.1 (h.text hevents))] at hline
      exact h.sound.readBytes_writeFile hline

/-- A log holds what was written to it. -/
theorem Logged.recorded (h : Logged path w events w') (hd : w.disk.Sound)
    (habsent : ∀ w₁, (World.prepareLog path).result w = (.ok (), w₁) →
      w₁.disk.exists? path = false) : Recorded path events w' := by
  induction h with
  | opened prepared =>
    obtain ⟨hsound, hdirectory⟩ := World.hasLogDirectory_of_prepareLog hd prepared
    exact ⟨hsound, hdirectory, fun _ => habsent _ prepared, fun hne => absurd rfl hne⟩
  | again _ prepared ih =>
    cases ih.directory.prepareLog.symm.trans prepared
    exact ih
  | written e _ line ih => exact ih.append line

/-- Reading a log gives the events that were written, all of them and in their order, if the path
was free once the first log was opened. Reading a log to which nothing was written fails. -/
theorem log_read_back (hd : w.disk.Sound)
    (habsent : ∀ w₁, (World.prepareLog path).result w = (.ok (), w₁) → w₁.disk.exists? path = false)
    (hevents : ∀ e ∈ events, e.Loggable) (h : Logged path w events w') :
    (events ≠ [] → (readLog path).result w'.disk = (.ok events, w'.disk)) ∧
      (events = [] → ∃ f, (readLog path).result w'.disk = (.error f, w'.disk)) := by
  have hlog := h.recorded hd habsent
  refine ⟨fun hne => ?_, fun hnil => ?_⟩
  · have htext : (OnDisk.readText path).result w'.disk = (.ok (logText events), w'.disk) := by
      rw [OnDisk.readText, result_within_eq_ok, OnDisk.result_read_eq_ok]
      exact ⟨hlog.text hne, rfl⟩
    rw [readLog, result_bind_of_ok htext, result_ofExcept, readLines_lines_logText hevents]
  · have hnone : ∀ text, w'.disk.readText path ≠ .ok text := fun text =>
      Disk.readText_of_absent (hlog.absent hnil)
    cases hread : w'.disk.readText path with
    | ok text => exact absurd hread (hnone text)
    | error fault =>
      have hfails : (OnDisk.readText path).result w'.disk =
          (.error (.within (.on .read path) (.fault fault)), w'.disk) := by
        rw [OnDisk.readText, result_within, OnDisk.result_read, hread]
        rfl
      exact ⟨_, result_bind_of_error hfails _⟩

def quietWorld : World where
  disk := .ofHome [ofText "w"]
  reported := []
  logs := ["/w/logs/events.jsonl"]
  clock := ⟨0⟩
  supply _ := ""
  drawn := 0

def openedWorld : World :=
  ((World.prepareLog "/w/logs/events.jsonl").result quietWorld).2

def brokenLines : Event where
  timestamp := Timestamp.millis ⟨0⟩
  stage := "a\r\n\x7b"
  level := .warn
  name := "\u2028"
  fields := [
    ("", .array [.object [("\n", .number (.negative 0))], .null]), ("\u0085", .string "\"\x0b")]

def plainEvent : Event where
  timestamp := Timestamp.millis ⟨0⟩
  stage := "s"
  level := .info
  name := ""
  fields := []

theorem loggable_brokenLines : brokenLines.Loggable where
  sorted := ⟨by unfold Json.Ascending; decide +kernel,
    ⟨⟨List.pairwise_singleton _ _, trivial, trivial⟩, trivial, trivial⟩, trivial, trivial⟩
  integral := ⟨⟨⟨trivial, trivial⟩, trivial, trivial⟩, trivial, trivial⟩
  shallow := by decide +kernel

set_option maxRecDepth 100000

/-- Two events are read back, with a second log opened in between. -/
theorem log_read_back_small :
    quietWorld.disk.Sound ∧ openedWorld.disk.exists? "/w/logs/events.jsonl" = false ∧
      ∃ w', Logged "/w/logs/events.jsonl" quietWorld [brokenLines, plainEvent] w' ∧
        (readLog "/w/logs/events.jsonl").result w'.disk =
          (.ok [brokenLines, plainEvent], w'.disk) := by
  have hsound : quietWorld.disk.Sound := Disk.sound_of_fits (by decide +kernel)
  have hopened : (World.prepareLog "/w/logs/events.jsonl").result quietWorld =
      (.ok (), openedWorld) :=
    Prod.ext (by decide +kernel) rfl
  have hfree : openedWorld.disk.exists? "/w/logs/events.jsonl" = false := by decide +kernel
  have hline : ∀ {d : Disk} {line : Bytes},
      (d.append "/w/logs/events.jsonl" line).toOption.isSome = true →
        ∃ d', d.append "/w/logs/events.jsonl" line = .ok d' := by
    intro d line h
    cases hd : d.append "/w/logs/events.jsonl" line with
    | ok d' => exact ⟨d', rfl⟩
    | error fault => simp [hd, Except.toOption] at h
  obtain ⟨d₁, hfirst⟩ := @hline openedWorld.disk (ofText brokenLines.line) (by decide +kernel)
  obtain ⟨d₂, hsecond⟩ := @hline (openedWorld.reporting brokenLines).disk
    (ofText plainEvent.line) (by decide +kernel)
  have habsent : ∀ w₁, (World.prepareLog "/w/logs/events.jsonl").result quietWorld = (.ok (), w₁) →
      w₁.disk.exists? "/w/logs/events.jsonl" = false := by
    intro w₁ h
    cases hopened.symm.trans h
    exact hfree
  have hone : Logged "/w/logs/events.jsonl" quietWorld [brokenLines]
      (openedWorld.reporting brokenLines) :=
    (Logged.opened hopened).reporting (e := brokenLines) rfl hfirst
  have hagain := hone.again (hone.recorded hsound habsent).directory.prepareLog
  have htwo : Logged "/w/logs/events.jsonl" quietWorld [brokenLines, plainEvent]
      ((openedWorld.reporting brokenLines).reporting plainEvent) :=
    hagain.reporting (e := plainEvent) rfl hsecond
  refine ⟨hsound, hfree, _, htwo, (log_read_back hsound habsent ?_ htwo).1 (by simp)⟩
  intro e he
  obtain rfl | rfl := List.mem_pair.1 he
  · exact loggable_brokenLines
  · exact ⟨⟨.nil, trivial⟩, trivial, by decide +kernel⟩

/-- A log to which nothing was written is not read as an empty list of events. -/
theorem unwritten_log_unreadable :
    ∃ w', Logged "/w/logs/events.jsonl" quietWorld [] w' ∧
      ((readLog "/w/logs/events.jsonl").result w'.disk).1.toOption.isNone = true := by
  refine ⟨openedWorld, .opened (Prod.ext (by decide +kernel) rfl), by decide +kernel⟩

end Event

end AgentChain
