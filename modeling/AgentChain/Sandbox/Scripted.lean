import AgentChain.Json.Parser
import AgentChain.Requirement
import AgentChain.Sandbox.Basic

/-!
# The scripted sandbox

A sandbox in memory that answers calls from a script and remembers them. Once the script has run
out, its last reply is given again.
-/

namespace AgentChain.Sandbox

/-! ### Files in memory -/

/-- Files and directories by their paths as written. -/
structure MemoryFiles where
  files : List (String × Bytes) := []
  directories : Text.NameSet := []

namespace MemoryFiles

def onTheWay : (path : String) → List String → List String
  | _, [] => []
  | path, part :: rest => (path ++ "/" ++ part) :: onTheWay (path ++ "/" ++ part) rest

def createDirectories (m : MemoryFiles) (path : String) : MemoryFiles :=
  let parts := (Text.split '/' path).filter (· ≠ "")
  { m with
    directories :=
      (onTheWay "" parts).foldl (fun set d => Text.NameSet.insert d set) m.directories }

def writeFile (m : MemoryFiles) (path : String) (contents : Bytes) : MemoryFiles :=
  let m := match beforeLastSlash? path with
    | some directory => m.createDirectories directory
    | none => m
  { m with files := Json.setMember path contents m.files }

def readBytes (m : MemoryFiles) (path : String) : Option Bytes :=
  Json.lookup? path m.files

def removeFile (m : MemoryFiles) (path : String) : MemoryFiles :=
  { m with files := m.files.filter fun f => f.1 ≠ path }

def isDirectory (m : MemoryFiles) (path : String) : Bool :=
  m.directories.contains (withoutTrailingSlashes path)

end MemoryFiles

/-! ### Scripts -/

inductive Reply where
  /-- Write a document with the trace id of the call. -/
  | echo (doc : Json.Value)
  /-- Write a document as it is. -/
  | raw (doc : Json.Value)
  | bytes (b : Bytes)
  | noTape
  | failed (reason : String)
  | timedOut

/-- The reply that completes with a result. -/
def Reply.complete (result : Json.Value) : Reply :=
  .echo (.object [("result", result), ("status", .string "complete")])

def Reply.pending (progress : Float) (agent : String) (input : Json.Value) : Reply :=
  .echo (.object [
    ("action", .object [
      ("payload", .object [("agent_name", .string agent), ("input_data", input)]),
      ("type", .string "run_agent")]),
    ("progress", .ofFloat progress), ("status", .string "pending")])

structure Observed where
  module : String
  tape : InputTape
  config : Json.Value

def Observed.toValue (c : Observed) : Json.Value :=
  .object [
    ("module", .string c.module), ("trace_id", .string c.tape.traceId), ("payload", c.tape.payload),
    ("config", c.config)]

/-- A sandbox in memory whose agents answer by a script. -/
structure Scripted where
  memory : MemoryFiles := {}
  /-- The modules that can be resolved. -/
  modules : List String := []
  replies : List Reply := []
  last : Option Reply := none
  installer : String := "micropip"
  /-- The installed packages, oldest first. -/
  installed : List String := []
  /-- The calls, oldest first. -/
  calls : List Observed := []
  hostInjected : Bool := false
  /-- The packages that the installer refuses. -/
  rejected : List String := []

namespace Scripted

variable {α : Type}

def changeFiles (f : MemoryFiles → MemoryFiles) : Action (Disk × Scripted) Unit :=
  .ofResult fun s => (.ok (), (s.1, { s.2 with memory := f s.2.memory }))

def unpackIntoLibrary (package archive : String) : Action (Disk × Scripted) Unit :=
  .ofResult fun s =>
    if s.1.isFile archive then
      (.ok (), (s.1, { s.2 with installed := s.2.installed ++ [package] }))
    else (.error (.refusal (.missingArchive archive)), s)

def hasInstaller (s : Disk × Scripted) : Bool :=
  s.2.installed.contains s.2.installer

/-- Take in a package if the installer is there and does not refuse it. -/
def installPackage (package archive : String) : Action (Disk × Scripted) Unit :=
  .ofResult fun s =>
    if !hasInstaller s then (.error (.refusal .noScriptedInstaller), s)
    else if s.2.rejected.contains package then (.error (.refusal (.incompatibleWheel package)), s)
    else (unpackIntoLibrary package archive).result s

def resolveModule (path : String) : Action (Disk × Scripted) Unit :=
  .ofResult fun s =>
    (if s.2.modules.contains path then .ok () else .error (.refusal (.noScriptedModule path)), s)

def readTape (path : String) : Action (Disk × Scripted) InputTape :=
  .ofResult fun s =>
    match s.2.memory.readBytes path with
    | none => (.error (.refusal .missingScriptedTape), s)
    | some raw =>
      match raw.text?.bind Json.parse? |>.bind InputTape.ofDocument? with
      | some tape => (.ok tape, s)
      | none => (.error (.within .parseTape (.fault .malformed)), s)

def observe (call : Observed) : Action (Disk × Scripted) Unit :=
  .ofResult fun s => (.ok (), (s.1, { s.2 with calls := s.2.calls ++ [call] }))

def nextReply : Action (Disk × Scripted) Reply :=
  .ofResult fun s =>
    match s.2.replies with
    | reply :: rest => (.ok reply, (s.1, { s.2 with replies := rest, last := some reply }))
    | [] =>
      match s.2.last with
      | some reply => (.ok reply, s)
      | none => (.error (.refusal .noReply), s)

def withTraceId (traceId : String) : Json.Value → Json.Value
  | .object members => .object (Json.setMember "trace_id" (.string traceId) members)
  | _ => .object [("trace_id", .string traceId)]

def perform (call : Invocation) (tape : InputTape) (reply : Reply) :
    Action (Disk × Scripted) Ending :=
  let write (b : Bytes) : Action (Disk × Scripted) Ending := do
    changeFiles (·.writeFile call.outputTape b)
    return .finished
  match reply with
  | .echo doc => write (Bytes.ofText (withTraceId tape.traceId doc).compact)
  | .raw doc => write (Bytes.ofText doc.compact)
  | .bytes b => write b
  | .noTape => return .finished
  | .failed reason => return .failed reason
  | .timedOut => return .timedOut

/-- Take the next reply of the script. -/
def invoke (call : Invocation) : Action (Disk × Scripted) (Ending × UInt64) := do
  let tape ← readTape call.inputTape
  observe { module := call.module, tape, config := call.config }
  let reply ← nextReply
  return (← perform call tape reply, 0)

end Scripted

def scripted : Sandbox Scripted where
  createDirectories path := Scripted.changeFiles (·.createDirectories path)
  writeFile path contents := Scripted.changeFiles (·.writeFile path contents)
  readBytes path := .ofResult fun s => (.ok (s.2.memory.readBytes path), s)
  removeFile path := Scripted.changeFiles (·.removeFile path)
  isDirectory path s := s.2.memory.isDirectory path
  injectHost _ := .ofResult fun s => (.ok (), (s.1, { s.2 with hostInjected := true }))
  unpackIntoLibrary := Scripted.unpackIntoLibrary
  hasInstaller := Scripted.hasInstaller
  installPackage := Scripted.installPackage
  resolveModule := Scripted.resolveModule
  invoke := Scripted.invoke

end AgentChain.Sandbox
