import AgentChain.Action
import AgentChain.Event
import AgentChain.Tape

/-!
# Sandboxes

Agents run in a sandbox: a file system of its own with absolute paths, the services of a host, a
library of installed packages, and modules that can be called. A sandbox may keep its files on the
disk of the host, so its operations act on that disk and on a state of their own.
-/

namespace AgentChain

namespace Sandbox

def appRoot : String := "/app"

def libraryRoot : String := "/lib/site-packages"

def inputTape : String := "/tmp/input_tape.json"

def outputTape : String := "/tmp/output_tape.json"

def hostVersion : String := "0.1.0"

/-- What a host says about itself. -/
structure HostInfo where
  runtime : String := "native"
  runtimeVersion : String := hostVersion
  language : String := "rust"
  languageVersion : String := ""
  hostVersion : String := Sandbox.hostVersion
  deriving DecidableEq, Repr

namespace HostInfo

def toValue (h : HostInfo) : Json.Value :=
  .object [
    ("runtime", .string h.runtime), ("runtime_version", .string h.runtimeVersion),
    ("language", .string h.language), ("language_version", .string h.languageVersion),
    ("host_version", .string h.hostVersion)]

def ofDocument? (d : Document) : Option HostInfo := do
  let f ← d.fields? [
    "runtime", "runtime_version", "language", "language_version", "host_version"]
  let runtime ← f.required? "runtime" Document.text?
  let runtimeVersion ← f.required? "runtime_version" Document.text?
  let language ← f.required? "language" Document.text?
  let languageVersion ← f.required? "language_version" Document.text?
  let hostVersion ← f.required? "host_version" Document.text?
  return { runtime, runtimeVersion, language, languageVersion, hostVersion }

end HostInfo

structure Invocation where
  module : String
  config : Json.Value
  inputTape : String := Sandbox.inputTape
  outputTape : String := Sandbox.outputTape
  /-- How long the call may take, in milliseconds. -/
  timeoutMs : Option Nat := none

inductive Ending where
  | finished
  /-- The agent failed and left no tape. -/
  | failed (reason : String)
  | timedOut
  deriving DecidableEq, Repr

def Ending.toValue : Ending → Json.Value
  | finished => .string "finished"
  | failed reason => .object [("failed", .string reason)]
  | timedOut => .string "timed_out"

end Sandbox

/-- The operations of a sandbox with states of type `S`. -/
structure Sandbox (S : Type) where
  createDirectories : (path : String) → Action (Disk × S) Unit
  writeFile : (path : String) → Bytes → Action (Disk × S) Unit
  /-- The contents of a file; a missing file has none. -/
  readBytes : (path : String) → Action (Disk × S) (Option Bytes)
  /-- Remove a file, which may be missing. -/
  removeFile : (path : String) → Action (Disk × S) Unit
  isDirectory : (path : String) → Disk × S → Bool
  injectHost : Sandbox.HostInfo → Action (Disk × S) Unit
  /-- Put a package into the library without an installer. -/
  unpackIntoLibrary : (package archive : String) → Action (Disk × S) Unit
  hasInstaller : Disk × S → Bool
  /-- Put a package into the library by the installer. -/
  installPackage : (package archive : String) → Action (Disk × S) Unit
  /-- Fail unless a module can be called. -/
  resolveModule : (path : String) → Action (Disk × S) Unit
  /-- Call a module; the second component is the time that it took, in milliseconds. -/
  invoke : Sandbox.Invocation → Action (Disk × S) (Sandbox.Ending × UInt64)

namespace Sandbox

variable {S : Type}

def withoutTrailingSlashes (path : String) : String :=
  String.ofList (path.toList.reverse.dropWhile (· = '/')).reverse

/-- What stands before the last slash of a path, if there is one. -/
def beforeLastSlash? (path : String) : Option String :=
  match path.toList.reverse.dropWhile (· ≠ '/') with
  | [] => none
  | _ :: rest => some (String.ofList rest.reverse)

def onDisk {α : Type} (x : Action Disk α) : Action (Disk × S) α :=
  Action.onPart Prod.fst (fun d s => (d, s.2)) x

def bringInFiles (box : Sandbox S) (dest : String) : List Disk.Collected → Action (Disk × S) Unit
  | [] => return ()
  | file :: rest => do
    let contents ← onDisk (OnDisk.readBytes file.path)
    let target := withoutTrailingSlashes dest ++ "/" ++ file.name
    match beforeLastSlash? target with
    | some directory => if directory.isEmpty then pure () else box.createDirectories directory
    | none => pure ()
    box.writeFile target contents
    bringInFiles box dest rest

/-- Copy the regular files of a tree into a sandbox below a directory, and count them. -/
def bringIn (box : Sandbox S) (source dest : String) : Action (Disk × S) Nat := do
  let files ← onDisk (OnDisk.collect source)
  box.createDirectories dest
  bringInFiles box dest files
  return files.length

end Sandbox

end AgentChain
