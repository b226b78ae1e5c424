import AgentChain.CommandLine.Arguments
import AgentChain.Run
import AgentChain.Vendor

/-!
# The command line

The commands print their results and warnings; a failure is printed at the end and decides the exit
code. The commands that build also write an event log beside the artifacts.
-/

namespace AgentChain.CommandLine

structure Console where
  world : World
  stdout : String := ""
  stderr : String := ""

namespace Console

variable {α : Type}

def print (line : String) : Action Console Unit :=
  .ofResult fun c => (.ok (), { c with stdout := c.stdout ++ line ++ "\n" })

def warn (line : String) : Action Console Unit :=
  .ofResult fun c => (.ok (), { c with stderr := c.stderr ++ line ++ "\n" })

def warnAll : List String → Action Console Unit
  | [] => return ()
  | line :: rest => do
    warn line
    warnAll rest

def onWorld (x : Action World α) : Action Console α :=
  Action.onPart Console.world (fun w c => { c with world := w }) x

def onDisk (x : Action Disk α) : Action Console α :=
  onWorld (World.onDisk x)

/-- An action whose events are also written beside the artifacts. -/
def withBuildLog (root : String) (config : Config) (x : Action Console α) : Action Console α := do
  let path := config.buildLog root
  onWorld (World.prepareLog path)
  World.withLog Console.world (fun w c => { c with world := w }) path x

end Console

open Console

/-! ### Commands -/

def discoveryReport (d : Discovery) : Json.Value :=
  .object [
    ("agents", .array (d.agents.map fun agent => .object [
      ("modulePath", .string agent.modulePath), ("name", .string agent.name)])),
    ("requested", .ofTexts d.requested), ("rootAgent", .string d.rootAgent)]

def discover (root : String) (config : Config) : Action Console Unit := do
  let d ← onWorld (Discovery.scan root config.vendor.bootstrapSet)
  print (discoveryReport d).pretty

def warnings (m : VendorManifest) : List String :=
  (m.missingPackages.map fun package => s!"warning: {package} is not in the catalog") ++
  (m.failedPackages.map fun (package, reason) =>
    s!"warning: {package} was not vendored: {reason}")

/-- Vendor the closure of the requested packages. There is no connection, so only files that are
already there can be used. -/
def vendor (root : String) (config : Config) (catalogPath : String) : Action Console Unit := do
  let catalog ← onDisk (Catalog.load catalogPath)
  let (result, _) ← onWorld
    (Session.enter () (Vendor.run Download.offline root config catalog))
  let outcome ← .ofExcept result
  let m := outcome.manifest
  let directory := config.vendorDir root
  let (there, all) := (m.packageFiles.length, m.resolvedPackages.length)
  print s!"vendored {there} of {all} package(s) into {directory}"
  warnAll (warnings m)

def package [Gzip.Encoder] (root : String) (config : Config) : Action Console Unit := do
  let outcome ← onWorld (Package.run root config)
  print (outcome.codeManifest.archiveSha256 ++ "  " ++ outcome.code.archive)
  print (outcome.depsManifest.archiveSha256 ++ "  " ++ outcome.deps.archive)

def verify (root : String) (config : Config) : Action Console Unit := do
  let verified ← onWorld (Verify.dist (config.distDir root))
  print ("ok  " ++ verified.code.archiveSha256 ++ "  " ++ verified.code.archive)
  print ("ok  " ++ verified.deps.archiveSha256 ++ "  " ++ verified.deps.archive)

def argument (name text : String) : Action Console Json.Value :=
  match Json.read? text with
  | some v => return v
  | none => .fail (.within (.parseArgument name) (.fault .malformed))

def execute (root : String) (config : Config) (inputText configText : String) :
    Action Console Unit := do
  let input ← argument "input" inputText
  let agentConfig ← argument "config" configText
  let outcome ← onWorld (Run.native root config { input, config := agentConfig } .builtin)
  if outcome.run.isAborted then
    warn (outcome.run.report outcome.paths.runId).pretty
    warn ("run report: " ++ outcome.paths.report)
  let result ← .ofExcept outcome.run.outcome
  print result.compact

def perform [Gzip.Encoder] (root : String) (command : Command) : Action Console Unit := do
  let config ← onDisk (Config.loadWorkspace root)
  match command with
  | .discover => discover root config
  | .vendor catalog => withBuildLog root config (vendor root config catalog)
  | .package => withBuildLog root config (package root config)
  | .build catalog => withBuildLog root config do
    vendor root config catalog
    package root config
  | .verify => verify root config
  | .run inputText configText => execute root config inputText configText

/-! ### Help -/

def versionText : String :=
  "agentpack " ++ Sandbox.hostVersion

def CommandName.summary : CommandName → String
  | discover => "List agents and the requested package set"
  | vendor => "Resolve and download the dependency closure into the vendor dir"
  | package => "Build code and dependency artifacts from vendored packages"
  | build => "`vendor` followed by `package`"
  | verify => "Check artifacts against their manifests"
  | run => "Verify, stage and execute the workflow"

def usage : Option CommandName → String
  | none => "Usage: agentpack [OPTIONS] <COMMAND>"
  | some .vendor => "Usage: agentpack vendor [OPTIONS] --catalog <CATALOG>"
  | some .build => "Usage: agentpack build [OPTIONS] --catalog <CATALOG>"
  | some name => s!"Usage: agentpack {name.text} [OPTIONS]"

def helpText : Option CommandName → String
  | none =>
    "Package agent chains into verifiable artifacts and run them\n\n" ++ usage none ++
      "\n\nCommands:" ++
      String.join (CommandName.all.map fun c =>
        "\n  " ++ c.text ++ String.ofList (List.replicate (10 - c.text.length) ' ') ++ c.summary)
  | some name => name.summary ++ "\n\n" ++ usage (some name)

/-! ### Requests -/

/-- Perform the request of arguments: the exit code and the console after it. -/
def run [Gzip.Encoder] (args : List String) (world : World) : UInt32 × Console :=
  match parse args with
  | .version => (0, { world, stdout := versionText ++ "\n" })
  | .help topic => (0, { world, stdout := helpText topic ++ "\n" })
  | .misuse => (2, { world, stderr := "error: invalid arguments\n\n" ++ usage none ++ "\n" })
  | .perform root command =>
    match (perform root command).result { world } with
    | (.ok (), c) => (0, c)
    | (.error f, c) => (f.exitCode, { c with stderr := c.stderr ++ f.message ++ "\n" })

end AgentChain.CommandLine
