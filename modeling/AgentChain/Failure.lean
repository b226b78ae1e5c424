import AgentChain.Catalog.Published
import AgentChain.Config
import AgentChain.FileTree.Disk
import AgentChain.Registry
import AgentChain.Workflow.Description

/-!
# Failures

Everything that can stop a stage. A failure is a cause within contexts that say what was being done;
its message names the contexts from the outside in and then the cause. The cause alone decides the
exit code of the command line.
-/

namespace AgentChain

/-! ### Causes -/

/-- The workspace has no usable first agent. -/
inductive DiscoveryFailure where
  | noAgents (root : String)
  | missingRoot (root : String) (found : List String)
  | reservedName (directory name : String)
  deriving DecidableEq, Repr

def DiscoveryFailure.message : DiscoveryFailure → String
  | noAgents root => s!"no agent directories found under {root}"
  | missingRoot root found =>
    s!"no root agent directory `agent/` under {root} (found: " ++ Text.join ", " found ++ ")"
  | reservedName directory name =>
    s!"agent directory '{directory}' uses the reserved name '{name}'"

/-- A download failed as often as it may be tried. -/
structure DownloadFailure where
  package : String
  url : String
  /-- The reasons of the attempts, in order. -/
  attempts : List String
  deriving DecidableEq, Repr

def DownloadFailure.message (f : DownloadFailure) : String :=
  s!"download of {f.package} failed after {f.attempts.length} attempt(s): " ++
    Text.join "; " f.attempts

/-- Bootstrap packages could not be vendored. -/
structure VendorFailure where
  /-- The unavailable bootstrap packages, in ascending order. -/
  bootstrap : List String
  /-- Those among them that the catalog does not list. -/
  uncatalogued : List String
  /-- All downloads that failed. -/
  downloads : List DownloadFailure
  deriving DecidableEq, Repr

def VendorFailure.message (f : VendorFailure) : String :=
  "vendoring failed for bootstrap package(s) " ++ Text.join ", " f.bootstrap ++
    (if f.uncatalogued.isEmpty then ""
      else "; not in catalog: " ++ Text.join ", " f.uncatalogued) ++
    String.join (f.downloads.map fun d => "; " ++ d.message)

/-- A workspace cannot be packaged as it is. -/
inductive PackagingFailure where
  | emptyArchive (path : String)
  | missingPackageFile (package filename directory : String)
  | missingSource (path : String)
  deriving DecidableEq, Repr

def PackagingFailure.message : PackagingFailure → String
  | emptyArchive path => s!"archive {path} contains no entries"
  | missingPackageFile package filename directory =>
    s!"vendored file {filename} for package {package} is missing from {directory}"
  | missingSource path => s!"agent source {path} is not a directory"

/-- How an unpacked file differs from its manifest. -/
inductive FileDifference where
  | missing
  | size (found expected : UInt64)
  | hash (found expected : String)
  deriving DecidableEq, Repr

def FileDifference.message : FileDifference → String
  | missing => "missing from unpacked tree"
  | size found expected => s!"size {found} != {expected}"
  | hash found expected => s!"sha256 {found} != {expected}"

inductive ArtifactPart where
  | archive
  | manifest
  deriving DecidableEq, Repr

def ArtifactPart.text : ArtifactPart → String
  | archive => "archive"
  | manifest => "manifest"

/-- An artifact does not match its manifest. -/
inductive IntegrityFailure where
  | missing (part : ArtifactPart) (path : String)
  | invalidManifest (path reason : String)
  | unreadable (path reason : String)
  | noExpectedHash (path : String)
  | hashMismatch (path expected actual : String)
  | sizeMismatch (path : String) (expected actual : UInt64)
  | fileMismatch (filename : String) (difference : FileDifference)
  | unexpectedFile (filename : String)
  deriving DecidableEq, Repr

def IntegrityFailure.message : IntegrityFailure → String
  | missing part path => s!"missing {part.text} {path}"
  | invalidManifest path reason => s!"manifest {path} is unreadable: {reason}"
  | unreadable path reason => s!"{path} could not be read: {reason}"
  | noExpectedHash path => s!"manifest {path} has no archive_sha256"
  | hashMismatch path expected actual =>
    s!"archive {path} hash mismatch: expected {expected}, actual {actual}"
  | sizeMismatch path expected actual =>
    s!"archive {path} size mismatch: expected {expected}, actual {actual}"
  | fileMismatch filename difference =>
    s!"unpacked file {filename} does not match manifest: {difference.message}"
  | unexpectedFile filename => s!"unpacked tree has file {filename} not listed in manifest"

/-- The two passes in which packages are installed. -/
inductive InstallPass where
  | bootstrap
  | general
  deriving DecidableEq, Repr

def InstallPass.text : InstallPass → String
  | bootstrap => "bootstrap"
  | general => "general"

/-- A package could not be installed. -/
structure InstallFailure where
  pass : InstallPass
  package : String
  reason : String
  deriving DecidableEq, Repr

def InstallFailure.message (f : InstallFailure) : String :=
  s!"{f.pass.text} install of {f.package} failed: {f.reason}"

def Workflow.AbortReason.message : Workflow.AbortReason → String
  | invalidResponse step reason => s!"invalid response at step {step}: {reason}"
  | unknownAgent step agent => s!"invalid response at step {step}: unknown agent '{agent}'"
  | traceMismatch step expected actual =>
    s!"trace id mismatch at step {step}: sent {expected}, received " ++ actual.getD "<none>"
  | stagnant step threshold =>
    s!"workflow stagnated at step {step}: {threshold} consecutive steps without progress"
  | stepLimitExceeded maxSteps => s!"workflow exceeded {maxSteps} steps without completing"
  | stepTimeout step agent timeoutMs =>
    s!"step {step} ({agent}) exceeded timeout of {timeoutMs} ms"

/-- Something that a rule forbids. -/
inductive Refusal where
  | requirement (flaw : Requirement.Flaw)
  | catalog (flaw : Catalog.Flaw)
  | config (flaw : Config.Flaw)
  | registry (path : String) (flaws : List Registry.Flaw)
  | archiveEscape (path entry : String)
  | wheelEscape (path entry : String)
  | packageFormat (path : String)
  | unnamedArchive (path : String)
  | relativeSandboxPath (path : String)
  | escapingSandboxPath (path : String)
  | noInstaller (name : String)
  | noModule (path : String)
  | noSources (module directory : String)
  | noHost
  | missingTape (path : String)
  | missingScriptedTape
  | noReply
  | missingArchive (path : String)
  | noScriptedInstaller
  | incompatibleWheel (package : String)
  | noScriptedModule (path : String)
  | unfinished (state : String)
  deriving DecidableEq, Repr

def Refusal.message : Refusal → String
  | requirement flaw => flaw.message
  | catalog flaw => flaw.message
  | config flaw => flaw.message
  | registry path flaws =>
    s!"invalid agent registry {path}: " ++ Text.join "; " (flaws.map Registry.Flaw.message)
  | archiveEscape path entry => s!"archive {path} entry {entry} escapes the destination"
  | wheelEscape path entry => s!"wheel {path} entry {entry} escapes the destination"
  | packageFormat path => s!"unsupported package file format: {path}"
  | unnamedArchive path => s!"archive path has no file name {path}"
  | relativeSandboxPath path => s!"sandbox path must be absolute: {path}"
  | escapingSandboxPath path => s!"sandbox path escapes its root: {path}"
  | noInstaller name => s!"installer '{name}' is not available in the sandbox"
  | noModule path => s!"no module '{path}' in sandbox"
  | noSources module directory => s!"module '{module}' has no sources at {directory}"
  | noHost => "host capabilities were not injected"
  | missingTape path => s!"input tape {path} is missing"
  | missingScriptedTape => "input tape missing"
  | noReply => "no scripted reply"
  | missingArchive path => s!"missing archive {path}"
  | noScriptedInstaller => "installer not available"
  | incompatibleWheel package => s!"wheel for {package} is not compatible"
  | noScriptedModule path => s!"no module '{path}'"
  | unfinished state => s!"workflow did not reach a terminal state: {state}"

/-! ### Contexts -/

/-- Acts on files and on documents. -/
inductive Act where
  | read
  | parse
  | openFile
  | create
  | walk
  | stat
  | write
  | copy
  | renameInto
  | remove
  | append
  | replace
  | readEntry
  | readZipDirectory
  | unpack
  | createDirectory
  | createVendorDir
  | createSandbox
  | createEventLogDir
  | writeTempConfig
  | replaceConfig
  | readWorkspace
  | loadCatalog
  deriving DecidableEq, Repr

def Act.text : Act → String
  | read => "read"
  | parse => "parse"
  | openFile => "open"
  | create => "create"
  | walk => "walk"
  | stat => "stat"
  | write => "write"
  | copy => "copy"
  | renameInto => "rename into"
  | remove => "remove"
  | append => "append"
  | replace => "replace"
  | readEntry => "read entry of"
  | readZipDirectory => "read zip directory of"
  | unpack => "unpack"
  | createDirectory => "create directory"
  | createVendorDir => "create vendor dir"
  | createSandbox => "create sandbox"
  | createEventLogDir => "create event log dir"
  | writeTempConfig => "write temp config"
  | replaceConfig => "replace config"
  | readWorkspace => "read workspace"
  | loadCatalog => "load catalog"

/-- What was being done when something failed. -/
inductive Context where
  | on (act : Act) (subject : String)
  | within (file : String)
  | readEntryAt (index : Nat) (path : String)
  | unpackPackage (package path : String)
  | bringIn (path destination : String)
  | resolveAgent (name modulePath : String)
  | parseEvent (line : String)
  | parseTape
  | parseArgument (name : String)
  | loadVendorManifest
  | noParent (path : String)
  deriving DecidableEq, Repr

def Context.message : Context → String
  | on act subject => s!"{act.text} {subject}"
  | within file => file
  | readEntryAt index path => s!"read entry {index} of {path}"
  | unpackPackage package path => s!"unpack {package} from {path}"
  | bringIn path destination => s!"mirror {path} into {destination}"
  | resolveAgent name modulePath => s!"resolve agent '{name}' ({modulePath})"
  | parseEvent line => s!"parse event '{line}'"
  | parseTape => "parse input tape"
  | parseArgument name => s!"parse --{name} as JSON"
  | loadVendorManifest => "load vendor manifest (run `agentpack vendor` first)"
  | noParent path => s!"config path missing parent {path}"

/-! ### Failures -/

/-- Failures of all stages. -/
inductive Failure where
  | discovery (f : DiscoveryFailure)
  | download (f : DownloadFailure)
  | vendor (f : VendorFailure)
  | packaging (f : PackagingFailure)
  | integrity (f : IntegrityFailure)
  | install (f : InstallFailure)
  | aborted (reason : Workflow.AbortReason)
  | refusal (r : Refusal)
  | fault (f : Fault)
  | within (context : Context) (inner : Failure)
  deriving DecidableEq, Repr

namespace Failure

def message : Failure → String
  | discovery f => f.message
  | download f => f.message
  | vendor f => f.message
  | packaging f => f.message
  | integrity f => f.message
  | install f => f.message
  | aborted reason => reason.message
  | refusal r => r.message
  | fault f => f.message
  | within context inner => context.message ++ ": " ++ inner.message

/-- A failure without its contexts. -/
def cause : Failure → Failure
  | within _ inner => inner.cause
  | f => f

/-- The exit code of a failure: two for artifacts that do not match, three for aborted workflows,
and one for everything else. -/
def exitCode (f : Failure) : UInt32 :=
  match f.cause with
  | integrity _ => 2
  | aborted _ => 3
  | _ => 1

end Failure

end AgentChain
