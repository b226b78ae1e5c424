import AgentChain.Package

/-!
# Verification

An artifact is accepted only if its archive has the hash, and where it is recorded the size, of its
manifest. An unpacked tree is accepted only if its regular files are exactly those of the manifest.
Whatever is missing, unreadable or different is a failure.
-/

namespace AgentChain.Verify

/-- Turn every failure into one of integrity. -/
def asIntegrity {α : Type} (f : String → IntegrityFailure) (x : Action Disk α) : Action Disk α := do
  match ← x.attempt with
  | .ok a => return a
  | .error e => .fail (.integrity (f e.message))

/-- Check an archive against the manifest beside it. -/
def artifact (a : Artifact) : Action Disk ArchiveManifest := do
  if !(← OnDisk.look (·.isFile a.manifest)) then
    .fail (.integrity (.missing .manifest a.manifest))
  else if !(← OnDisk.look (·.isFile a.archive)) then
    .fail (.integrity (.missing .archive a.archive))
  else
    let manifest ← asIntegrity (.invalidManifest a.manifest) (ArchiveManifest.load a.manifest)
    if Text.isAllBlank manifest.archiveSha256 then
      .fail (.integrity (.noExpectedHash a.manifest))
    else
      let size ← asIntegrity (.unreadable a.archive) (Archive.sizeOf a.archive)
      match manifest.archiveSize.filter (· ≠ size) with
      | some expected => .fail (.integrity (.sizeMismatch a.archive expected size))
      | none =>
        let actual ← asIntegrity (.unreadable a.archive) (Archive.hashFile a.archive)
        if actual = manifest.archiveSha256 then return manifest
        else .fail (.integrity (.hashMismatch a.archive manifest.archiveSha256 actual))

def acceptedEvent (a : Artifact) (m : ArchiveManifest) : Event :=
  (Event.make "verify" .info "artifact_verified").field "archive" (.string a.archive)
    |>.field "sha256" (.string m.archiveSha256)

def rejectedEvent (a : Artifact) (f : Failure) : Event :=
  (Event.make "verify" .error "artifact_rejected").field "archive" (.string a.archive)
    |>.field "reason" (.string f.message)

/-- Check an artifact and report what came of it. -/
def reporting (a : Artifact) : Action World ArchiveManifest := do
  match ← (World.onDisk (artifact a)).attempt with
  | .ok manifest =>
    World.report (acceptedEvent a manifest)
    return manifest
  | .error f =>
    World.report (rejectedEvent a f)
    .fail f

/-- The manifests of artifacts that were accepted. -/
structure Verified where
  code : ArchiveManifest
  deps : ArchiveManifest
  deriving DecidableEq, Repr

def Verified.toValue (v : Verified) : Json.Value :=
  .object [("code", v.code.toValue), ("deps", v.deps.toValue)]

/-- Check the code and then the dependencies. -/
def dist (directory : String) : Action World Verified := do
  let code ← reporting (Artifact.code directory)
  let deps ← reporting (Artifact.deps directory)
  return { code, deps }

/-! ### Unpacked trees -/

/-- Compare the files of a tree with those of a manifest: each file of the manifest takes its file
from the tree, and nothing may be left. -/
def compare : (expected actual : List FileEntry) → Except IntegrityFailure Unit
  | [], actual =>
    match actual with
    | [] => .ok ()
    | extra :: _ => .error (.unexpectedFile extra.filename)
  | e :: rest, actual =>
    match actual.find? fun found => found.filename == e.filename with
    | none => .error (.fileMismatch e.filename .missing)
    | some found =>
      if found.size ≠ e.size then .error (.fileMismatch e.filename (.size found.size e.size))
      else if found.sha256 ≠ e.sha256 then
        .error (.fileMismatch e.filename (.hash found.sha256 e.sha256))
      else compare rest (actual.filter fun f => f.filename ≠ e.filename)

/-- Check the regular files of a directory against a manifest. -/
def tree (manifest : ArchiveManifest) (directory : String) : Action Disk Unit := do
  let actual ← asIntegrity (.unreadable directory) (Archive.describe directory)
  .ofExcept ((compare manifest.files actual).mapError .integrity)

end AgentChain.Verify
