import AgentChain.Package
import AgentChain.Sandbox.Basic
import AgentChain.Session

/-!
# Staging

A verified and unpacked pair of artifacts is brought into a sandbox: the code is copied in, every
agent of the registry is resolved to its module, the host is taken in, and the packages are
installed. The bootstrap packages come first, without an installer; all others are installed by it.
-/

namespace AgentChain.Stage

variable {S : Type}

/-- The unpacked trees and the manifest of the dependencies. -/
structure Inputs where
  codeDir : String
  depsDir : String
  depsManifest : ArchiveManifest

/-- The registry and the modules of a staged workflow. -/
structure Staged where
  registry : Registry
  table : Agent.Table

def Staged.toValue (s : Staged) : Json.Value :=
  .object [
    ("registry", s.registry.toValue),
    ("table", .object (s.table.map fun agent => (agent.1, .string agent.2)))]

/-- Put agents into a table, each with its module, which the sandbox must have. -/
def resolveAgents (box : Sandbox S) :
    List Agent.Descriptor → Agent.Table → Action (Disk × S) Agent.Table
  | [], table => return table
  | agent :: rest, table => do
    (box.resolveModule agent.modulePath).within (.resolveAgent agent.name agent.modulePath)
    resolveAgents box rest (Json.setMember agent.name agent.modulePath table)

/-- The modules of the agents, by their names. -/
def buildTable (box : Sandbox S) (registry : Registry) : Action (Disk × S) Agent.Table :=
  resolveAgents box registry.agents []

/-- Find the file of a package. -/
def packagePath (depsDir : String) (files : List (String × String)) (pass : InstallPass)
    (package : String) : Action Disk String :=
  match Json.lookup? package files with
  | none =>
    .fail (.install { pass, package, reason := "not present in the dependency artifact" })
  | some filename => do
    let path := Path.join (Path.join depsDir Package.packagesDir) filename
    if ← OnDisk.look (·.isFile path) then return path
    else .fail (.install {
      pass, package, reason := s!"file {path} missing from unpacked dependencies" })

def installedEvent (pass : InstallPass) (package : String) : Event :=
  (Event.make "stage" .info "package_installed").field "pass" (.string pass.text)
    |>.field "package" (.string package)

/-- Install one package in a pass. -/
def installOne (inputs : Inputs) (pass : InstallPass)
    (install : (package archive : String) → Action (Disk × S) Unit) (package : String) :
    Action (Session S) Unit := do
  let files := inputs.depsManifest.packageFiles.getD []
  let archive ← Session.onWorld (World.onDisk (packagePath inputs.depsDir files pass package))
  match ← (Session.onState (install package archive)).attempt with
  | .ok () => Session.report (installedEvent pass package)
  | .error f => .fail (.install { pass, package, reason := f.message })

/-- Install packages one after the other, up to the first failure. -/
def installAll (inputs : Inputs) (pass : InstallPass)
    (install : (package archive : String) → Action (Disk × S) Unit) :
    List String → Action (Session S) Unit
  | [] => return ()
  | package :: rest => do
    installOne inputs pass install package
    installAll inputs pass install rest

def requireInstaller (box : Sandbox S) (installerPackage : String) : Action (Session S) Unit :=
  .ofResult fun s =>
    if box.hasInstaller (s.world.disk, s.state) then (.ok (), s)
    else (.error (.install {
      pass := .general
      package := PackageName.normalize installerPackage
      reason := "installer unavailable after bootstrap pass" }), s)

/-- Bring the code in and install the packages, those of the bootstrap first. -/
def run (box : Sandbox S) (inputs : Inputs) (vendor : Config.Vendoring) (host : Sandbox.HostInfo) :
    Action (Session S) Staged := do
  let copied ← Session.onState ((box.bringIn inputs.codeDir Sandbox.appRoot).within
    (.bringIn inputs.codeDir Sandbox.appRoot))
  Session.report ((Event.make "stage" .info "code_mirrored").field "files" (.ofCount copied))
  let registry ← Session.onWorld
    (World.onDisk (Registry.load (Path.join inputs.codeDir Registry.fileName)))
  let table ← Session.onState (buildTable box registry)
  Session.report ((Event.make "stage" .info "agents_resolved").field "agents"
    (.ofTexts (table.map (·.1))) |>.field "root" (.string registry.rootAgent))
  Session.onState (box.injectHost host)
  let bootstrap := vendor.bootstrapSet
  installAll inputs .bootstrap box.unpackIntoLibrary bootstrap
  requireInstaller box vendor.installerPackage
  let resolved := inputs.depsManifest.resolvedPackages.getD []
  installAll inputs .general box.installPackage
    (resolved.filter fun package => !bootstrap.contains package)
  return { registry, table }

end AgentChain.Stage
