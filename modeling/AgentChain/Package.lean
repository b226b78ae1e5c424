import AgentChain.Archive.Pack
import AgentChain.Discovery

/-!
# Packaging

A workspace becomes two artifacts. The code artifact holds the runtime files, the sources of the
agents and the registry; the dependency artifact holds the vendored package files. Each artifact is
an archive with a manifest beside it. The artifacts of an earlier pass are removed first, so that a
pass that fails leaves no artifact that does not belong.
-/

namespace AgentChain

/-- An archive and the manifest beside it, by their paths. -/
structure Artifact where
  archive : String
  manifest : String
  deriving DecidableEq, Repr

namespace Artifact

/-- The file name of the code archive. -/
def codeArchive : String := "code.tar.gz"

/-- The file name of the dependency archive. -/
def depsArchive : String := "deps.tar.gz"

/-- The file name of the manifest of the code. -/
def codeManifest : String := "code.manifest.json"

/-- The file name of the manifest of the dependencies. -/
def depsManifest : String := "deps.manifest.json"

/-- The code artifact in a directory. -/
def code (dist : String) : Artifact where
  archive := Path.join dist codeArchive
  manifest := Path.join dist codeManifest

/-- The dependency artifact in a directory. -/
def deps (dist : String) : Artifact where
  archive := Path.join dist depsArchive
  manifest := Path.join dist depsManifest

/-- Remove a file, if it is there. -/
def removeFile (path : String) : Action Disk Unit :=
  Action.within (.on .remove path) <| OnDisk.change fun d =>
    match d.removeFile path with
    | .error .notFound => .ok d
    | r => r

/-- Remove an artifact, its manifest first. -/
def remove (a : Artifact) : Action Disk Unit := do
  removeFile a.manifest
  removeFile a.archive

end Artifact

namespace Package

/-! ### Trees -/

/-- Directories whose files are not packaged. -/
def skipped : List String :=
  ["__pycache__", ".git"]

/-- Copy files into a directory under their names. -/
def copyFiles (dest : String) : List Disk.Collected → Action Disk Unit
  | [] => return ()
  | file :: rest => do
    if !(Path.segments file.name).any skipped.contains then
      let target := Path.join dest file.name
      OnDisk.createParent target
      (OnDisk.change (·.copy file.path target)).within (.on .copy file.path.text)
    copyFiles dest rest

/-- Copy the files of a directory into another one. -/
def copyTree (source dest : String) : Action Disk Unit := do
  copyFiles dest (← OnDisk.collect source)

/-- Where the sources of an agent are in the code tree. -/
def agentDir (name : String) : String :=
  "agents/" ++ name

/-- Copy the sources of agents, which the registry then describes by their new places. -/
def copyAgents (tree : String) : List Agent.Descriptor → Action Disk (List Agent.Descriptor)
  | [] => return []
  | agent :: rest => do
    if !(← OnDisk.look (·.isDirectory agent.sourceDir)) then
      .fail (.packaging (.missingSource agent.sourceDir))
    else
      copyTree agent.sourceDir (Path.join tree (agentDir agent.name))
      return { agent with sourceDir := agentDir agent.name } :: (← copyAgents tree rest)

/-- Lay out the runtime files, the sources of the agents and the registry. -/
def buildCodeTree (runtimeDir : String) (discovery : Discovery) (tree : String) :
    Action Disk Registry := do
  OnDisk.createDirectories tree
  if ← OnDisk.look (·.isDirectory runtimeDir) then
    copyTree runtimeDir (Path.join tree "runtime")
  let agents ← copyAgents tree discovery.agents
  let registry : Registry := { agents, rootAgent := discovery.rootAgent }
  Registry.store (Path.join tree Registry.fileName) registry
  return registry

/-- Where the package files are in the dependency tree. -/
def packagesDir : String :=
  "packages"

/-- Copy the files of packages, each of which must be there. -/
def copyPackages (vendorDir dest : String) : List (String × String) → Action Disk Unit
  | [] => return ()
  | (package, filename) :: rest => do
    let source := Path.join vendorDir filename
    if !(← OnDisk.look (·.isFile source)) then
      .fail (.packaging (.missingPackageFile package filename vendorDir))
    else
      (OnDisk.change (·.copy source (Path.join dest filename))).within (.on .copy source)
      copyPackages vendorDir dest rest

/-- Lay out the package files. -/
def buildDepsTree (vendorDir : String) (vendor : VendorManifest) (tree : String) :
    Action Disk Unit := do
  let packages := Path.join tree packagesDir
  OnDisk.createDirectories packages
  copyPackages vendorDir packages vendor.packageFiles

/-! ### Artifacts -/

/-- Pack a tree and write the manifest of the archive. -/
def finish [Gzip.Encoder] (tree : String) (artifact : Artifact) (manifest : ArchiveManifest) :
    Action Disk ArchiveManifest := do
  let summary ← Archive.pack tree artifact.archive
  let manifest : ArchiveManifest := { manifest with
    files := summary.files
    archiveSha256 := summary.sha256
    archiveSize := some summary.size }
  ArchiveManifest.store artifact.manifest manifest
  return manifest

/-- Report of an archive that was written. -/
def writtenEvent (m : ArchiveManifest) : Event :=
  (Event.make "package" .info "archive_written").field "archive" (.string m.archive)
    |>.field "sha256" (.string m.archiveSha256) |>.field "entries" (.ofCount m.files.length)

/-- The artifacts that were made, with their manifests. -/
structure Outcome where
  code : Artifact
  codeManifest : ArchiveManifest
  deps : Artifact
  depsManifest : ArchiveManifest
  deriving DecidableEq, Repr

/-- Make the artifacts, with trees laid out in a staging directory. -/
def runIn [Gzip.Encoder] (root : String) (config : Config) (discovery : Discovery)
    (vendor : VendorManifest) (dist staging : String)
    : Action World Outcome := do
  let code := Artifact.code dist
  let deps := Artifact.deps dist
  World.onDisk code.remove
  World.onDisk deps.remove
  let codeTree := Path.join staging "code"
  let _ ← World.onDisk (buildCodeTree (config.runtimeDir root) discovery codeTree)
  let depsTree := Path.join staging "deps"
  World.onDisk (buildDepsTree (config.vendorDir root) vendor depsTree)
  let codeManifest ← World.onDisk
    (finish codeTree code (.new config.runtime Artifact.codeArchive []))
  World.report (writtenEvent codeManifest)
  let depsManifest ← World.onDisk
    (finish depsTree deps ((ArchiveManifest.new config.runtime Artifact.depsArchive []).mergeVendor
      vendor))
  World.report (writtenEvent depsManifest)
  return { code, codeManifest, deps, depsManifest }

/-- Make a directory anew, without what was in it. -/
def resetDirectory (path : String) : Action Disk Unit := do
  if ← OnDisk.look (·.exists? path) then
    (OnDisk.change (·.removeTree path)).within (.on .remove path)
  OnDisk.createDirectories path

/-- The name of the staging directory. -/
def stagingDir : String :=
  ".staging"

/-- What is packaged: the agents of a workspace and its vendor manifest. -/
def inputs (root : String) (config : Config) : Action World (Discovery × VendorManifest) := do
  let discovery ← Discovery.scan root config.vendor.bootstrapSet
  let manifestPath := Path.join (config.vendorDir root) VendorManifest.fileName
  let vendor ← World.onDisk ((VendorManifest.load manifestPath).within .loadVendorManifest)
  return (discovery, vendor)

/-- Package a workspace; whatever comes of it, the staging directory is removed in the end. -/
def run [Gzip.Encoder] (root : String) (config : Config) : Action World Outcome := do
  let (discovery, vendor) ← inputs root config
  let dist := config.distDir root
  let staging := Path.join dist stagingDir
  World.onDisk (resetDirectory staging)
  let result ← (runIn root config discovery vendor dist staging).attempt
  let _ ← World.onDisk (OnDisk.change (·.removeTree staging)).attempt
  .ofExcept result

end Package

end AgentChain
