import AgentChain.Agent.Modules
import AgentChain.Archive.Unpack
import AgentChain.Sandbox.Basic

/-!
# The native sandbox

A sandbox whose files stand below a directory of the host and whose modules are the agents of this
library. Package files are unpacked into the library; the installer is there once its package is. A
call is timed by what the agent sleeps, and one that reaches its limit leaves no tape.
-/

namespace AgentChain.Sandbox

/-- A sandbox in a directory of the host, with modules of this library. -/
structure Native where
  /-- The directory of the host that holds the files. -/
  root : String
  modules : Agent.Modules
  /-- The normal name of the package that provides the installer. -/
  installer : String
  /-- The normal names of the installed packages. -/
  installed : Text.NameSet
  host : Option HostInfo

namespace Native

/-- A new sandbox below a directory, which is made. -/
def create (root : String) (modules : Agent.Modules) (installerPackage : String) :
    Action Disk Native := do
  OnDisk.createDirectoriesFor .createSandbox root
  return {
    root, modules, installer := PackageName.normalize installerPackage, installed := [],
    host := none }

/-- The path that parts lead to from a directory, unless one of them leads up. -/
def descend? (directory : String) : List Path.Part → Option String
  | [] => some directory
  | .up :: _ => none
  | .name s :: rest => descend? (Path.join directory s) rest
  | _ :: rest => descend? directory rest

/-- Where a path of the sandbox stands on the host. It must be absolute and must not lead up. -/
def hostPath (root path : String) : Except Failure String :=
  if Path.isAbsolute path then
    match descend? root (Path.parts path) with
    | some host => .ok host
    | none => .error (.refusal (.escapingSandboxPath path))
  else .error (.refusal (.relativeSandboxPath path))

variable {α : Type}

def atPath (path : String) (act : String → Action Disk α) : Action (Disk × Native) α :=
  .ofResult fun s =>
    match hostPath s.2.root path with
    | .error f => (.error f, s)
    | .ok host =>
      let (r, d) := (act host).result s.1
      (r, (d, s.2))

def createDirectories (path : String) : Action (Disk × Native) Unit :=
  atPath path fun host => OnDisk.createDirectories host

def writeFile (path : String) (contents : Bytes) : Action (Disk × Native) Unit :=
  atPath path fun host => do
    OnDisk.createParent host
    OnDisk.writeFile host contents

def readBytes (path : String) : Action (Disk × Native) (Option Bytes) :=
  atPath path fun host => do
    if ← OnDisk.look (·.isFile host) then return some (← OnDisk.readBytes host) else return none

def removeFile (path : String) : Action (Disk × Native) Unit :=
  atPath path fun host => Action.within (.on .remove host) <| OnDisk.change fun d =>
    match d.removeFile host with
    | .error .notFound => .ok d
    | r => r

def isDirectory (path : String) (s : Disk × Native) : Bool :=
  match hostPath s.2.root path with
  | .ok host => s.1.isDirectory host
  | .error _ => false

def injectHost (info : HostInfo) : Action (Disk × Native) Unit := do
  writeFile (appRoot ++ "/host.json") (Bytes.ofText info.toValue.pretty)
  .ofResult fun s => (.ok (), (s.1, { s.2 with host := some info }))

def withHost (root : String) (modules : Agent.Modules) (installerPackage : String)
    (info : HostInfo) : Action Disk Native := do
  let box ← create root modules installerPackage
  .ofResult fun d =>
    let (r, s) := (injectHost info).result (d, box)
    (r.map fun _ => s.2, s.1)

def unpackIntoLibrary (package archive : String) : Action (Disk × Native) Unit := do
  atPath libraryRoot fun library =>
    (Archive.unpackPackage archive library).within (.unpackPackage package archive)
  .ofResult fun s => (.ok (), (s.1, { s.2 with
    installed := Text.NameSet.insert (PackageName.normalize package) s.2.installed }))

def hasInstaller (s : Disk × Native) : Bool :=
  s.2.installed.contains s.2.installer

def installPackage (package archive : String) : Action (Disk × Native) Unit :=
  .ofResult fun s =>
    if hasInstaller s then (unpackIntoLibrary package archive).result s
    else (.error (.refusal (.noInstaller s.2.installer)), s)

/-- The directory of the sources of a module: its path without the last name, below the code. -/
def sourcesOf (module : String) : String :=
  let names := Text.split '.' module
  let package := if 1 < names.length then names.dropLast else names
  appRoot ++ "/" ++ Text.join "/" package

def resolveModule (path : String) : Action (Disk × Native) Unit :=
  .ofResult fun s =>
    if (s.2.modules.get? path).isNone then (.error (.refusal (.noModule path)), s)
    else if isDirectory (sourcesOf path) s then (.ok (), s)
    else (.error (.refusal (.noSources path (sourcesOf path))), s)

def moduleOf (path : String) : Action (Disk × Native) Agent.Program :=
  .ofResult fun s =>
    match s.2.modules.get? path with
    | some program => (.ok program, s)
    | none => (.error (.refusal (.noModule path)), s)

def requireHost : Action (Disk × Native) Unit :=
  .ofResult fun s => (if s.2.host.isSome then .ok () else .error (.refusal .noHost), s)

def readTape (path : String) : Action (Disk × Native) InputTape := do
  match ← readBytes path with
  | none => .fail (.refusal (.missingTape path))
  | some raw =>
    match raw.text?.bind Json.parse? |>.bind InputTape.ofDocument? with
    | some tape => return tape
    | none => .fail (.within .parseTape (.fault .malformed))

def exceeds (took : Nat) : Option Nat → Bool
  | some limit => limit ≤ took
  | none => false

/-- Call a module on the tapes. -/
def invoke (call : Invocation) : Action (Disk × Native) (Ending × UInt64) := do
  let program ← moduleOf call.module
  requireHost
  let tape ← readTape call.inputTape
  let turn := program.run tape.payload call.config
  let took := UInt64.ofNat turn.sleptMs
  if exceeds turn.sleptMs call.timeoutMs then return (.timedOut, took)
  else match turn.answer with
    | .ok output =>
      writeFile call.outputTape (Bytes.ofText (output.toTape tape.traceId).compact)
      return (.finished, took)
    | .error fault => return (.failed fault.message, took)

end Native

def native : Sandbox Native where
  createDirectories := Native.createDirectories
  writeFile := Native.writeFile
  readBytes := Native.readBytes
  removeFile := Native.removeFile
  isDirectory := Native.isDirectory
  injectHost := Native.injectHost
  unpackIntoLibrary := Native.unpackIntoLibrary
  hasInstaller := Native.hasInstaller
  installPackage := Native.installPackage
  resolveModule := Native.resolveModule
  invoke := Native.invoke

end AgentChain.Sandbox
