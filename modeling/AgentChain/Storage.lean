import AgentChain.Action
import AgentChain.Manifest

/-!
# Stored documents

Manifests and registries are kept as indented JSON with a newline at the end. They are written
beside their place first and then moved there, so that a reader finds the old document or the new
one. The configuration is kept as TOML in the same way.
-/

namespace AgentChain

namespace Storage

/-- Read a JSON document by a reader of its form. -/
def readDocument {α : Type} (read : Document.Reader α) (path : String) : Action Disk α := do
  let contents ← OnDisk.readText path
  match (Json.parse? contents).bind read with
  | some a => return a
  | none => .fail (.within (.on .parse path) (.fault .malformed))

/-- Write a JSON document beside its place and move it there. -/
def writeDocument (path : String) (value : Json.Value) : Action Disk Unit := do
  OnDisk.createParent path
  let temporary := Path.withExtension path "json.tmp"
  OnDisk.writeFile temporary (Bytes.ofText (value.pretty ++ "\n"))
  (OnDisk.change (·.rename temporary path)).within (.on .replace path)

end Storage

namespace ArchiveManifest

def load (path : String) : Action Disk ArchiveManifest :=
  Storage.readDocument ofDocument? path

def store (path : String) (m : ArchiveManifest) : Action Disk Unit :=
  Storage.writeDocument path m.toValue

end ArchiveManifest

namespace VendorManifest

def load (path : String) : Action Disk VendorManifest :=
  Storage.readDocument ofDocument? path

def store (path : String) (m : VendorManifest) : Action Disk Unit :=
  Storage.writeDocument path m.toValue

end VendorManifest

namespace Registry

/-- The file name of a registry in a code tree. -/
def fileName : String :=
  "registry.json"

/-- Refuse a registry that breaks a rule. -/
def check (path : String) (r : Registry) : Action Disk Unit :=
  if r.flaws.isEmpty then pure () else .fail (.refusal (.registry path r.flaws))

def load (path : String) : Action Disk Registry := do
  let r ← Storage.readDocument ofDocument? path
  check path r
  return r

def store (path : String) (r : Registry) : Action Disk Unit := do
  check path r
  Storage.writeDocument path r.toValue

end Registry

namespace Config

/-- Refuse a configuration that breaks a rule. -/
def check (c : Config) : Action Disk Unit :=
  match c.flaw? with
  | some flaw => .fail (.refusal (.config flaw))
  | none => pure ()

/-- Read a configuration; a missing file stands for the defaults. -/
def load (path : String) : Action Disk Config := do
  if ← OnDisk.look (·.exists? path) then
    let contents ← OnDisk.readText path
    match parse? contents with
    | some c =>
      check c
      return c
    | none => .fail (.within (.on .parse path) (.fault .malformed))
  else
    check {}
    return {}

/-- Read the configuration of the workspace in a directory. -/
def loadWorkspace (root : String) : Action Disk Config :=
  load (Path.join root fileName)

/-- Write a configuration that breaks no rule. -/
def store (path : String) (c : Config) : Action Disk Unit := do
  check c
  match Path.parent? path with
  | none => .fail (.within (.noParent path) (.fault .notFound))
  | some directory =>
    OnDisk.createDirectoriesFor .createDirectory directory
    let temporary := Path.withExtension path "toml.tmp"
    (OnDisk.change (·.writeFile temporary (Bytes.ofText (c.toToml ++ "\n")))).within
      (.on .writeTempConfig temporary)
    (OnDisk.change (·.rename temporary path)).within (.on .replaceConfig path)

/-- Where the artifacts of a workspace are. -/
def distDir (c : Config) (root : String) : String :=
  Path.join root c.layout.distDir

def buildEvents : String :=
  "events.jsonl"

/-- The event log of the commands that build. -/
def buildLog (c : Config) (root : String) : String :=
  Path.join (c.distDir root) buildEvents

/-- Where the package files of a workspace are. -/
def vendorDir (c : Config) (root : String) : String :=
  Path.join root c.layout.vendorDir

/-- Where the runtime files of a workspace are. -/
def runtimeDir (c : Config) (root : String) : String :=
  Path.join root c.layout.runtimeDir

end Config

namespace Catalog

/-- Read a catalog; one that breaks a rule is refused. -/
def load (path : String) : Action Disk Catalog := do
  let contents ← OnDisk.readText path
  match Catalog.parse contents with
  | .ok catalog => return catalog
  | .error flaw => .fail (.within (.on .loadCatalog path) (.refusal (.catalog flaw)))

end Catalog

end AgentChain
