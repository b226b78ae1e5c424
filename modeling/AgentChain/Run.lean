import AgentChain.Archive.Unpack
import AgentChain.Engine
import AgentChain.Sandbox.Native
import AgentChain.Stage
import AgentChain.Verify

/-!
# Runs of a packaged workflow

A run verifies the artifacts, unpacks them, verifies the unpacked trees, stages the workflow and
then executes it. Nothing touches the sandbox before everything is verified. Each run has a
directory of its own for the unpacked trees, the event log and the report.
-/

namespace AgentChain.Run

variable {S : Type}

/-- The input of the first agent and the configuration of all agents. -/
structure Request where
  input : Json.Value
  config : Json.Value

/-- The directory of a run, by its identifier. -/
structure Paths where
  runId : String
  dir : String
  deriving DecidableEq, Repr

namespace Paths

/-- The files of a run below the directory of the artifacts. -/
def new (dist runId : String) : Paths where
  runId
  dir := Path.join (Path.join dist "runs") runId

def codeDir (p : Paths) : String := Path.join p.dir "code"

def depsDir (p : Paths) : String := Path.join p.dir "deps"

def sandboxDir (p : Paths) : String := Path.join p.dir "sandbox"

def events (p : Paths) : String := Path.join p.dir "events.jsonl"

def report (p : Paths) : String := Path.join p.dir "report.json"

end Paths

/-- Make the directory of a run, for its event log too. -/
def begin (paths : Paths) : Action World Unit := do
  World.onDisk (OnDisk.createDirectories paths.dir)
  World.prepareLog paths.events

/-- Unpack both artifacts into the directory of a run. -/
def unpack (dist : String) (paths : Paths) : Action Disk Unit := do
  Archive.unpack (Artifact.code dist).archive paths.codeDir
  Archive.unpack (Artifact.deps dist).archive paths.depsDir

/-- Check the artifacts, unpack them, and check what was unpacked. -/
def prepare (dist : String) (paths : Paths) : Action World Verify.Verified := do
  let verified ← Verify.dist dist
  World.onDisk (unpack dist paths)
  World.onDisk (Verify.tree verified.code paths.codeDir)
  World.onDisk (Verify.tree verified.deps paths.depsDir)
  return verified

def hostInfo (code : ArchiveManifest) : Sandbox.HostInfo where
  runtime := code.runtime
  runtimeVersion := code.runtimeVersion
  language := code.language
  languageVersion := code.languageVersion
  hostVersion := Sandbox.hostVersion

/-- Stage the workflow in a sandbox, run it, and write its report. -/
def execute (box : Sandbox S) (config : Config) (request : Request) (paths : Paths)
    (verified : Verify.Verified) : Action (Session S) Engine.Run := do
  let staged ← Stage.run box
    { codeDir := paths.codeDir, depsDir := paths.depsDir, depsManifest := verified.deps }
    config.vendor (hostInfo verified.code)
  let setting : Engine.Setting S := {
    box, table := staged.table, limits := config.engine.limits,
    timeoutMs := config.engine.stepTimeoutMs }
  let run ← Engine.run setting staged.registry.rootAgent request.input request.config
  Session.onWorld (World.onDisk (Storage.writeDocument paths.report (run.report paths.runId)))
  return run

def inBox (box : Sandbox S) (root : String) (config : Config) (request : Request) (paths : Paths) :
    Action (Session S) Engine.Run := do
  Session.onWorld (begin paths)
  Session.withLog paths.events do
    let verified ← Session.onWorld (prepare (config.distDir root) paths)
    execute box config request paths verified

/-- A new name for a run: the time and the start of a fresh identifier. -/
def newRunId : Action World String := do
  let time ← World.now
  let fresh ← World.draw
  return time.compact ++ "-" ++ String.ofList ((fresh.toList.filter (· ≠ '-')).take 8)

/-- What came of a run, and where its files are. -/
structure Outcome where
  paths : Paths
  run : Engine.Run

/-- Run the packaged workflow of a workspace in a native sandbox of its own. -/
def native (root : String) (config : Config) (request : Request) (modules : Agent.Modules) :
    Action World Outcome := do
  let paths := Paths.new (config.distDir root) (← newRunId)
  let box ← World.onDisk
    (Sandbox.Native.create paths.sandboxDir modules config.vendor.installerPackage)
  let (result, _) ← Session.enter box (inBox Sandbox.native root config request paths)
  let run ← .ofExcept result
  return { paths, run }

end AgentChain.Run
