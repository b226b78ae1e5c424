import AgentChain.Document.Record
import AgentChain.Json.Parser
import AgentChain.Json.Printer

/-!
# Events

Every stage reports what it does as events. An event has a stage, a level, a name and named fields,
and the time at which it was made. An event log is a file with one event to a line.
-/

namespace AgentChain

inductive Event.Level where
  | debug
  | info
  | warn
  | error
  deriving DecidableEq, Repr

/-- One report of a stage. -/
structure Event where
  timestamp : String
  stage : String
  level : Event.Level
  name : String
  /-- The fields in ascending order of their names. -/
  fields : List (String × Json.Value)

namespace Event

def Level.alternatives : List (String × Level) :=
  [("debug", .debug), ("info", .info), ("warn", .warn), ("error", .error)]

def Level.text : Level → String
  | debug => "debug"
  | info => "info"
  | warn => "warn"
  | error => "error"

/-- An event without fields and without a time. -/
def make (stage : String) (level : Level) (name : String) : Event :=
  { timestamp := "", stage, level, name, fields := [] }

/-- The event with one more field; a field of the same name is replaced. -/
def field (e : Event) (name : String) (value : Json.Value) : Event :=
  { e with fields := Json.setMember name value e.fields }

def toValue (e : Event) : Json.Value :=
  .object [
    ("timestamp", .string e.timestamp), ("stage", .string e.stage),
    ("level", .string e.level.text), ("event", .string e.name), ("fields", .object e.fields)]

/-- The line of an event in a log, with its line end. -/
def line (e : Event) : String :=
  e.toValue.compact ++ "\n"

def members? : Document → Option (List (String × Json.Value))
  | .table entries =>
    match (Document.table entries).value? with
    | some (.object members) => some members
    | _ => none
  | _ => none

def ofDocument? (d : Document) : Option Event := do
  let f ← d.fields? ["timestamp", "stage", "level", "event", "fields"]
  let timestamp ← f.required? "timestamp" Document.text?
  let stage ← f.required? "stage" Document.text?
  let level ← f.required? "level" (Document.choice? Level.alternatives)
  let name ← f.required? "event" Document.text?
  let fields ← f.required? "fields" members?
  return { timestamp, stage, level, name, fields }

def parse? (line : String) : Option Event :=
  (Json.parse? line).bind ofDocument?

end Event

end AgentChain
