import AgentChain.Action
import AgentChain.Event
import AgentChain.Timestamp

/-!
# The world of a stage

A stage works on a disk, reports events and draws fresh identifiers. Events are kept in the order in
which they are reported, and each is also written to the event logs that are open at that time; a
log that cannot be written is passed over, since losing an event must not fail a stage.
-/

namespace AgentChain

/-- A disk, the events so far, the open event logs, a clock and a supply of identifiers. -/
structure World where
  disk : Disk
  /-- The reported events, oldest first. -/
  reported : List Event
  /-- The paths of the open event logs. -/
  logs : List String
  clock : Timestamp
  /-- The identifiers to be drawn. -/
  supply : Nat → String
  /-- How many identifiers have been drawn. -/
  drawn : Nat

namespace World

variable {α : Type}

def onDisk (x : Action Disk α) : Action World α :=
  Action.onPart World.disk (fun d w => { w with disk := d }) x

/-- The disk after a line is added to an event log, if that is possible. -/
def appendLine (line : Bytes) (d : Disk) (path : String) : Disk :=
  match d.append path line with
  | .ok d => d
  | .error _ => d

/-- Collect an event and append it to the open logs. -/
def reporting (w : World) (e : Event) : World :=
  let e := { e with timestamp := w.clock.millis }
  { w with
    disk := w.logs.foldl (appendLine (Bytes.ofText e.line)) w.disk
    reported := w.reported ++ [e] }

def report (e : Event) : Action World Unit :=
  .ofResult fun w => (.ok (), w.reporting e)

def reportAll : List Event → Action World Unit
  | [] => return ()
  | e :: rest => do
    report e
    reportAll rest

def prepareLog (path : String) : Action World Unit :=
  match Path.parent? path with
  | some directory => onDisk (OnDisk.createDirectoriesFor .createEventLogDir directory)
  | none => pure ()

/-- An action on a state with a world, during which an event log is open. -/
def withLog {σ : Type} (world : σ → World) (put : World → σ → σ) (path : String) (x : Action σ α) :
    Action σ α :=
  .ofResult fun s =>
    let logs := (world s).logs
    let (r, after) := x.result (put { world s with logs := logs ++ [path] } s)
    (r, put { world after with logs } after)

/-- Take the next identifier. -/
def draw : Action World String :=
  .ofResult fun w => (.ok (w.supply w.drawn), { w with drawn := w.drawn + 1 })

def now : Action World Timestamp :=
  .ofResult fun w => (.ok w.clock, w)

end World

/-! ### Event logs -/

namespace Event

def readLines : List String → Except Failure (List Event)
  | [] => .ok []
  | line :: rest =>
    if Text.isAllBlank line then readLines rest
    else match Event.parse? line with
      | none => .error (.within (.parseEvent line) (.fault .malformed))
      | some e => (readLines rest).map (e :: ·)

def readLog (path : String) : Action Disk (List Event) := do
  let contents ← OnDisk.readText path
  .ofExcept (readLines (Text.lines contents))

end Event

end AgentChain
