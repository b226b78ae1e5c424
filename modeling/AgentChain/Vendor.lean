import AgentChain.Archive.Pack
import AgentChain.Closure
import AgentChain.Discovery
import AgentChain.Download
import AgentChain.Session

/-!
# Vendoring

The closure of the requested packages is fetched into the vendor directory and recorded in the
vendor manifest. A package that cannot be fetched is recorded as failed and does not stop the
others. Only a bootstrap package that is not there in the end fails the stage, since nothing can be
installed without it.
-/

namespace AgentChain.Vendor

/-! ### Resolution -/

/-- The events of a resolution: the gaps in ascending order, and then the counts. -/
def resolutionEvents (requested : Text.NameSet) (closure : Closure) : List Event :=
  (closure.missing.map fun name =>
    (Event.make "resolve" .warn "catalog_gap").field "package" (.string name)) ++
  [(Event.make "resolve" .info "closure_resolved").field "requested" (.ofCount requested.length)
    |>.field "resolved" (.ofCount closure.packages.length)
    |>.field "missing" (.ofCount closure.missing.length)]

/-- Close the requested packages under the catalog, with a report. -/
def resolve (requested : Text.NameSet) (catalog : Catalog) : Action World Closure := do
  let closure := catalog.close requested
  World.reportAll (resolutionEvents requested closure)
  return closure

/-! ### Packages -/

variable {S : Type}

/-- A file that was vendored earlier, if it has the hash of the catalog or, without one, if it is
not empty. -/
def reusable (entry : Catalog.Entry) (target : String) (d : Disk) : Option FileEntry :=
  match d.openFile target with
  | .ok opened =>
    match opened.read with
    | .ok contents =>
      let sha256 := Sha256.hex contents
      if contents.isEmpty then none
      else if entry.sha256.all (Download.sameHash · sha256) then
        some { filename := entry.fileName, size := UInt64.ofNat contents.length, sha256 }
      else none
    | .error _ => none
  | .error _ => none

/-- Write a package file by way of its temporary name. -/
def store (target : String) (body : Bytes) : Action Disk Unit := do
  let temporary := target ++ ".part"
  OnDisk.writeFile temporary body
  (OnDisk.change (·.rename temporary target)).within (.on .renameInto target)

/-- What came of a package. -/
inductive Vendored where
  | reused (file : FileEntry)
  | downloaded (file : FileEntry)
  | failed (f : DownloadFailure)
  deriving DecidableEq, Repr

/-- Vendor a package: keep the file that is there, or fetch it and write it. -/
def vendorOne (fetcher : Download.Fetcher S) (policy : Config.RetryPolicy) (base target : String)
    (entry : Catalog.Entry) : Action (Session S) Vendored :=
  .ofResult fun s =>
    let url := base ++ entry.fileName
    match reusable entry target s.world.disk with
    | some file => (.ok (.reused file), s)
    | none =>
      match Download.fetch fetcher entry.name url entry.sha256 policy s.state with
      | (.error f, remembered) => (.ok (.failed f), { s with state := remembered })
      | (.ok body, remembered) =>
        let (stored, disk) := (store target body).result s.world.disk
        let s := { world := { s.world with disk }, state := remembered }
        match stored with
        | .ok () => (.ok (.downloaded {
            filename := entry.fileName
            size := UInt64.ofNat body.length
            sha256 := Sha256.hex body }), s)
        | .error f => (.ok (.failed {
            package := entry.name
            url
            attempts := [s!"store {target}: " ++ f.message] }), s)

def vendoredEvent (name : String) (entry : Catalog.Entry) : Vendored → Event
  | .reused file => stored "package_reused" file
  | .downloaded file => stored "package_downloaded" file
  | .failed f =>
    (Event.make "vendor" .error "package_failed").field "package" (.string name)
      |>.field "url" (.string f.url) |>.field "attempts" (.ofTexts f.attempts)
where
  /-- The event of a package that is there. -/
  stored (event : String) (file : FileEntry) : Event :=
    (Event.make "vendor" .info event).field "package" (.string name)
      |>.field "file" (.string entry.fileName) |>.field "size" (.ofUInt64 file.size)

/-- What became of the packages so far. -/
structure Progress where
  packageFiles : List (String × String) := []
  files : List FileEntry := []
  failures : List DownloadFailure := []

def Progress.add (p : Progress) (name : String) (entry : Catalog.Entry) : Vendored → Progress
  | .reused file => there file
  | .downloaded file => there file
  | .failed f => { p with failures := p.failures ++ [f] }
where
  /-- Take in a package that is there. -/
  there (file : FileEntry) : Progress :=
    { p with
      packageFiles := p.packageFiles ++ [(name, entry.fileName)]
      files := p.files ++ [file] }

/-- Vendor packages one after the other, whatever comes of each. -/
def vendorAll (fetcher : Download.Fetcher S) (policy : Config.RetryPolicy) (catalog : Catalog)
    (base directory : String) : (names : List String) → Progress → Action (Session S) Progress
  | [], p => return p
  | name :: rest, p =>
    match catalog.get? name with
    | none => vendorAll fetcher policy catalog base directory rest p
    | some entry => do
      let vendored ←
        vendorOne fetcher policy base (Path.join directory entry.fileName) entry
      Session.onWorld (World.report (vendoredEvent name entry vendored))
      vendorAll fetcher policy catalog base directory rest (p.add name entry vendored)

/-! ### The stage -/

/-- The manifest of a pass, where it was written, and what was found in the workspace. -/
structure Outcome where
  manifest : VendorManifest
  manifestPath : String
  discovery : Discovery

def Outcome.toValue (o : Outcome) : Json.Value :=
  .object [
    ("manifest", o.manifest.toValue), ("manifest_path", .string o.manifestPath),
    ("discovery", o.discovery.toValue)]

/-- The manifest of a pass. -/
def manifestOf (config : Config) (discovery : Discovery) (closure : Closure) (p : Progress)
    (time : Timestamp) : VendorManifest where
  timestamp := time.seconds
  runtime := config.runtime.name
  runtimeVersion := config.runtime.version
  language := config.runtime.language
  languageVersion := config.runtime.languageVersion
  requestedPackages := discovery.requested
  resolvedPackages := closure.packages
  missingPackages := closure.missing
  failedPackages := Json.sortMembers (p.failures.map fun f => (f.package, f.message))
  packageFiles := p.packageFiles
  files := p.files

/-- The failure of a pass that lacks bootstrap packages. -/
def shortage? (bootstrap : List String) (closure : Closure) (p : Progress) : Option VendorFailure :=
  let uncatalogued := closure.missing.filter fun name => bootstrap.contains name
  let failed := (p.failures.map (·.package)).filter fun name => bootstrap.contains name
  let unavailable := Text.NameSet.ofList (uncatalogued ++ failed)
  if unavailable.isEmpty then none
  else some { bootstrap := unavailable, uncatalogued, downloads := p.failures }

/-- Vendor the packages that a workspace needs. -/
def run (fetcher : Download.Fetcher S) (root : String) (config : Config) (catalog : Catalog) :
    Action (Session S) Outcome := do
  let bootstrap := config.vendor.bootstrapSet
  let discovery ← Session.onWorld (Discovery.scan root bootstrap)
  let closure ← Session.onWorld (resolve discovery.requested catalog)
  let directory := config.vendorDir root
  Session.onWorld (World.onDisk (OnDisk.createDirectoriesFor .createVendorDir directory))
  let base := catalog.downloadBase config.vendor.downloadBase
  let progress ←
    vendorAll fetcher config.vendor.retryPolicy catalog base directory closure.packages {}
  let manifest := manifestOf config discovery closure progress (← Session.onWorld World.now)
  let manifestPath := Path.join directory VendorManifest.fileName
  Session.onWorld (World.onDisk (VendorManifest.store manifestPath manifest))
  match shortage? bootstrap closure progress with
  | some f =>
    Session.onWorld (World.report
      ((Event.make "vendor" .error "bootstrap_unavailable").field "packages"
        (.ofTexts f.bootstrap)))
    .fail (.vendor f)
  | none =>
    Session.onWorld (World.report (Event.make "vendor" .info "vendor_complete"))
    return { manifest, manifestPath, discovery }

end AgentChain.Vendor
