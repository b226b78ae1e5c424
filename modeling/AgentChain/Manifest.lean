import AgentChain.Config

/-!
# Manifests

An archive manifest says what an artifact holds: the hash and the size of the archive, and those of
every file in it. A vendor manifest says what was requested of a catalog and what was fetched. The
manifest of a dependency artifact carries the record of the vendoring that filled it.
-/

namespace AgentChain

open Document (list? map? option? text? uint32? uint64?)

/-- The size and the hash of one file of a tree. -/
structure FileEntry where
  /-- The path below the top of the tree. -/
  filename : String
  size : UInt64
  sha256 : String
  deriving DecidableEq, Repr

namespace FileEntry

def toValue (e : FileEntry) : Json.Value :=
  .object [
    ("filename", .string e.filename), ("size", .ofUInt64 e.size), ("sha256", .string e.sha256)]

def ofDocument? (d : Document) : Option FileEntry := do
  let f ← d.fields? ["filename", "size", "sha256"]
  let filename ← f.required? "filename" text?
  let size ← f.required? "size" uint64?
  let sha256 ← f.required? "sha256" text?
  return { filename, size, sha256 }

end FileEntry

structure VendorManifest where
  timestamp : String
  runtime : String
  runtimeVersion : String
  language : String
  languageVersion : String
  requestedPackages : List String
  resolvedPackages : List String
  missingPackages : List String
  /-- The packages that could not be fetched, each with the last reason. -/
  failedPackages : List (String × String)
  /-- The fetched packages, each with the name of its file. -/
  packageFiles : List (String × String)
  files : List FileEntry
  deriving DecidableEq, Repr

def textTable (entries : List (String × String)) : Json.Value :=
  .object (entries.map fun e => (e.1, .string e.2))

namespace VendorManifest

def fileName : String :=
  "vendor_manifest.json"

def toValue (m : VendorManifest) : Json.Value :=
  .object [
    ("timestamp", .string m.timestamp), ("runtime", .string m.runtime),
    ("runtime_version", .string m.runtimeVersion), ("language", .string m.language),
    ("language_version", .string m.languageVersion),
    ("requested_packages", .ofTexts m.requestedPackages),
    ("resolved_packages", .ofTexts m.resolvedPackages),
    ("missing_packages", .ofTexts m.missingPackages),
    ("failed_packages", textTable m.failedPackages),
    ("package_files", textTable m.packageFiles),
    ("files", .array (m.files.map FileEntry.toValue))]

def ofDocument? (d : Document) : Option VendorManifest := do
  let f ← d.fields? [
    "timestamp", "runtime", "runtime_version", "language", "language_version",
    "requested_packages", "resolved_packages", "missing_packages", "failed_packages",
    "package_files", "files"]
  let texts := list? text?
  let timestamp ← f.required? "timestamp" text?
  let runtime ← f.required? "runtime" text?
  let runtimeVersion ← f.required? "runtime_version" text?
  let language ← f.required? "language" text?
  let languageVersion ← f.required? "language_version" text?
  let requestedPackages ← f.required? "requested_packages" texts
  let resolvedPackages ← f.required? "resolved_packages" texts
  let missingPackages ← f.required? "missing_packages" texts
  let failedPackages ← f.withDefault? "failed_packages" [] (map? text?)
  let packageFiles ← f.required? "package_files" (map? text?)
  let files ← f.required? "files" (list? FileEntry.ofDocument?)
  return {
    timestamp, runtime, runtimeVersion, language, languageVersion, requestedPackages,
    resolvedPackages, missingPackages, failedPackages, packageFiles, files }

end VendorManifest

structure ArchiveManifest where
  schemaVersion : UInt32
  runtime : String
  runtimeVersion : String
  language : String
  languageVersion : String
  /-- The name of the archive, beside the manifest. -/
  archive : String
  archiveSha256 : String
  archiveSize : Option UInt64
  files : List FileEntry
  requestedPackages : Option (List String)
  resolvedPackages : Option (List String)
  packageFiles : Option (List (String × String))
  missingPackages : Option (List String)
  vendoredAt : Option String
  deriving DecidableEq, Repr

namespace ArchiveManifest

def currentSchema : UInt32 :=
  1

/-- The description of an archive that is still to be written. -/
def new (runtime : Config.Runtime) (archive : String) (files : List FileEntry) :
    ArchiveManifest where
  schemaVersion := currentSchema
  runtime := runtime.name
  runtimeVersion := runtime.version
  language := runtime.language
  languageVersion := runtime.languageVersion
  archive
  archiveSha256 := ""
  archiveSize := none
  files
  requestedPackages := none
  resolvedPackages := none
  packageFiles := none
  missingPackages := none
  vendoredAt := none

def mergeVendor (m : ArchiveManifest) (v : VendorManifest) : ArchiveManifest :=
  { m with
    requestedPackages := some v.requestedPackages
    resolvedPackages := some v.resolvedPackages
    packageFiles := some v.packageFiles
    missingPackages := some v.missingPackages
    vendoredAt := some v.timestamp }

/-- The written form of a field that is left out when it has no value. -/
def present {α : Type} (name : String) (write : α → Json.Value) (value : Option α) :
    List (String × Json.Value) :=
  (value.map fun a => (name, write a)).toList

def toValue (m : ArchiveManifest) : Json.Value :=
  .object ([
    ("schema_version", .ofUInt32 m.schemaVersion), ("runtime", .string m.runtime),
    ("runtime_version", .string m.runtimeVersion), ("language", .string m.language),
    ("language_version", .string m.languageVersion), ("archive", .string m.archive),
    ("archive_sha256", .string m.archiveSha256),
    ("archive_size", .ofOption .ofUInt64 m.archiveSize),
    ("files", .array (m.files.map FileEntry.toValue))] ++
    present "requested_packages" .ofTexts m.requestedPackages ++
    present "resolved_packages" .ofTexts m.resolvedPackages ++
    present "package_files" textTable m.packageFiles ++
    present "missing_packages" .ofTexts m.missingPackages ++
    present "vendored_at" .string m.vendoredAt)

def ofDocument? (d : Document) : Option ArchiveManifest := do
  let f ← d.fields? [
    "schema_version", "runtime", "runtime_version", "language", "language_version", "archive",
    "archive_sha256", "archive_size", "files", "requested_packages", "resolved_packages",
    "package_files", "missing_packages", "vendored_at"]
  let texts := option? (list? text?)
  let schemaVersion ← f.required? "schema_version" uint32?
  let runtime ← f.required? "runtime" text?
  let runtimeVersion ← f.required? "runtime_version" text?
  let language ← f.required? "language" text?
  let languageVersion ← f.required? "language_version" text?
  let archive ← f.required? "archive" text?
  let archiveSha256 ← f.withDefault? "archive_sha256" "" text?
  let archiveSize ← f.withDefault? "archive_size" none (option? uint64?)
  let files ← f.required? "files" (list? FileEntry.ofDocument?)
  let requestedPackages ← f.withDefault? "requested_packages" none texts
  let resolvedPackages ← f.withDefault? "resolved_packages" none texts
  let packageFiles ←
    f.withDefault? "package_files" none (option? (map? text?))
  let missingPackages ← f.withDefault? "missing_packages" none texts
  let vendoredAt ← f.withDefault? "vendored_at" none (option? text?)
  return {
    schemaVersion, runtime, runtimeVersion, language, languageVersion, archive, archiveSha256,
    archiveSize, files, requestedPackages, resolvedPackages, packageFiles, missingPackages,
    vendoredAt }

end ArchiveManifest

end AgentChain
