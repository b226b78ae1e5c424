import AgentChain.Proofs.Catalog.Published
import AgentChain.Proofs.Download
import AgentChain.Proofs.Frame

/-!
# The rounds of a vendoring

Packages are vendored one after another. A round is what is done for one package: a file that is
there already is kept, or the file is fetched and stored. A round never fails; that a package could
not be fetched is what the round comes to, and the next round starts in the session that this one
left. The rounds of a pass are listed beside the loop, and what the pass gathers is read off from
the list.
-/

namespace AgentChain.Vendor

open AgentChain.Action
open Session (onWorld)
open Download (Fetcher sameHash)

variable {S : Type} {fetcher : Fetcher S} {policy : Config.RetryPolicy} {catalog : Catalog}
  {base directory target : String} {entry : Catalog.Entry} {s t u : Session S} {v : Vendored}
  {rounds : List Round} {file : FileEntry}

/-! ### One package -/

def Vendored.file? : Vendored → Option FileEntry
  | .reused file => some file
  | .downloaded file => some file
  | .failed _ => none

def Vendored.failure? : Vendored → Option DownloadFailure
  | .reused _ => none
  | .downloaded _ => none
  | .failed f => some f

def recordOf (entry : Catalog.Entry) (body : Bytes) : FileEntry where
  filename := entry.fileName
  size := UInt64.ofNat body.length
  sha256 := Sha256.hex body

/-- Everything that a round can come to: the file that is there is kept, nothing usable is fetched,
or what is fetched is stored, which may fail. -/
theorem vendorOne_cases (h : (vendorOne fetcher policy base target entry).result s = (.ok v, t)) :
    (∃ file, reusable entry target s.world.disk = some file ∧ v = .reused file ∧ t = s) ∨
    (∃ f state, reusable entry target s.world.disk = none ∧ Download.fetch fetcher entry.name
        (base ++ entry.fileName) entry.sha256 policy s.state = (.error f, state) ∧ v = .failed f ∧
      t = { s with state }) ∨
    ∃ body state r disk, reusable entry target s.world.disk = none ∧ Download.fetch fetcher
        entry.name (base ++ entry.fileName) entry.sha256 policy s.state = (.ok body, state) ∧
      (store target body).result s.world.disk = (r, disk) ∧
      t = { world := { s.world with disk }, state } ∧
      ((r = .ok () ∧ v = .downloaded (recordOf entry body)) ∨ ∃ f, r = .error f ∧ v = .failed {
        package := entry.name
        url := base ++ entry.fileName
        attempts := [s!"store {target}: " ++ f.message] }) := by
  rw [vendorOne, result_ofResult] at h
  split at h
  · next file hfile =>
    cases h
    exact .inl ⟨file, hfile, rfl, rfl⟩
  · next hnone =>
    simp only at h
    split at h
    · next f state hfetch =>
      cases h
      exact .inr (.inl ⟨f, state, hnone, hfetch, rfl, rfl⟩)
    · next body state hfetch =>
      refine .inr (.inr ⟨body, state, _, _, hnone, hfetch, rfl, ?_⟩)
      split at h
      · next hstored =>
        cases h
        exact ⟨rfl, .inl ⟨hstored, rfl⟩⟩
      · next f hstored =>
        cases h
        exact ⟨rfl, .inr ⟨f, hstored, rfl⟩⟩

theorem package_of_fetch (h : Download.fetch fetcher package url expected policy x = (.error f, y)) :
    f.package = package := by
  rw [Download.fetch_eq] at h
  rcases hattempts : (Download.attempts fetcher url expected policy.maxAttempts.toNat 1 x).1 with
    reasons | body <;> rw [hattempts] at h <;> cases h
  rfl

theorem reusable_eq_some (h : reusable entry target d = some file) :
    ∃ contents, d.readBytes target = .ok contents ∧ contents ≠ [] ∧
      entry.sha256.all (sameHash · (Sha256.hex contents)) ∧
      file = recordOf entry contents := by
  rw [reusable] at h
  split at h
  · next opened hopened =>
    split at h
    · next contents hcontents =>
      simp only at h
      split at h
      · cases h
      · next hempty =>
        split at h
        · next hhash =>
          cases h
          refine ⟨contents, ?_, fun hnil => hempty (by simp [hnil]), hhash, rfl⟩
          rw [Disk.readBytes, hopened]
          exact hcontents
        · cases h
    · cases h
  · cases h

theorem sameHash_of_fetch {package url hash} {body} {x y}
    (h : Download.fetch fetcher package url (some hash) policy x = (.ok body, y)) :
    sameHash (Sha256.hex body) hash :=
  Download.sameHash_iff.2 (Download.fits_of_fetch h hash rfl)

theorem exists_vendorOne (fetcher : Fetcher S) (policy : Config.RetryPolicy)
    (base target : String) (entry : Catalog.Entry) (s : Session S) :
    ∃ v t, (vendorOne fetcher policy base target entry).result s = (.ok v, t) := by
  rw [vendorOne, result_ofResult]
  simp only
  repeat' split
  all_goals exact ⟨_, _, rfl⟩

theorem file?_or_failure? (h : (vendorOne fetcher policy base target entry).result s = (.ok v, t)) :
    (∃ file, v.file? = some file ∧ v.failure? = none ∧ file.filename = entry.fileName) ∨
      ∃ f, v.file? = none ∧ v.failure? = some f ∧ f.package = entry.name := by
  obtain ⟨file, hfile, rfl, -⟩ | ⟨f, state, -, hfetch, rfl, -⟩ |
      ⟨body, state, r, disk, -, -, -, -, ⟨-, rfl⟩ | ⟨f, -, rfl⟩⟩ := vendorOne_cases h
  · obtain ⟨contents, -, -, -, rfl⟩ := reusable_eq_some hfile
    exact .inl ⟨_, rfl, rfl, rfl⟩
  · exact .inr ⟨f, rfl, rfl, package_of_fetch hfetch⟩
  · exact .inl ⟨_, rfl, rfl, rfl⟩
  · exact .inr ⟨_, rfl, rfl, rfl⟩

theorem filename_of_vendorOne
    (h : (vendorOne fetcher policy base target entry).result s = (.ok v, t))
    (hfile : v.file? = some file) : file.filename = entry.fileName := by
  obtain ⟨file', hfile', -, hname⟩ | ⟨f, hnone, -⟩ := file?_or_failure? h
  · exact Option.some.inj (hfile.symm.trans hfile') ▸ hname
  · cases hfile.symm.trans hnone

/-! ### All packages -/

/-- What became of one package. -/
structure Round where
  name : String
  entry : Catalog.Entry
  vendored : Vendored

/-- The rounds of a pass, each of which starts in the session that the one before it left. -/
inductive Rounds (fetcher : Fetcher S) (policy : Config.RetryPolicy) (catalog : Catalog)
    (base directory : String) : Session S → List Round → Session S → Prop
  | nil (s : Session S) : Rounds fetcher policy catalog base directory s [] s
  | cons {s t u : Session S} {r : Round} {rest : List Round}
      (hentry : catalog.get? r.name = some r.entry)
      (hround : (vendorOne fetcher policy base (Path.join directory r.entry.fileName)
        r.entry).result s = (.ok r.vendored, t))
      (hrest : Rounds fetcher policy catalog base directory
        (t.reporting (vendoredEvent r.name r.entry r.vendored)) rest u) :
      Rounds fetcher policy catalog base directory s (r :: rest) u

/-- The file of a package that is there, with the name of the package. -/
def Round.packageFile? (r : Round) : Option (String × String) :=
  r.vendored.file?.map fun _ => (r.name, r.entry.fileName)

def Progress.ofRounds (rounds : List Round) : Progress where
  packageFiles := rounds.filterMap Round.packageFile?
  files := rounds.filterMap (·.vendored.file?)
  failures := rounds.filterMap (·.vendored.failure?)

theorem Progress.foldl_add (rounds : List Round) (p : Progress) :
    rounds.foldl (fun p r => p.add r.name r.entry r.vendored) p =
      { packageFiles := p.packageFiles ++ (ofRounds rounds).packageFiles
        files := p.files ++ (ofRounds rounds).files
        failures := p.failures ++ (ofRounds rounds).failures } := by
  induction rounds generalizing p with
  | nil => simp [ofRounds]
  | cons r rounds ih =>
    rw [List.foldl_cons, ih]
    cases hv : r.vendored <;>
      simp [ofRounds, Progress.add, Progress.add.there, Round.packageFile?, Vendored.file?,
        Vendored.failure?, hv]

theorem exists_rounds (fetcher : Fetcher S) (policy : Config.RetryPolicy)
    (catalog : Catalog) (base directory : String) (names : List String) (p : Progress)
    (s : Session S) :
    ∃ rounds t, Rounds fetcher policy catalog base directory s rounds t ∧
      rounds.map (·.name) = names.filter (fun n => (catalog.get? n).isSome) ∧
      (vendorAll fetcher policy catalog base directory names p).result s =
        (.ok (rounds.foldl (fun p r => p.add r.name r.entry r.vendored) p), t) := by
  induction names generalizing p s with
  | nil => exact ⟨[], s, .nil s, rfl, rfl⟩
  | cons name names ih =>
    rw [vendorAll]
    split
    · next hnone =>
      obtain ⟨rounds, t, hrounds, hnames, hresult⟩ := ih p s
      exact ⟨rounds, t, hrounds, by simp [hnone, hnames], hresult⟩
    · next entry hentry =>
      obtain ⟨v, t, hround⟩ :=
        exists_vendorOne fetcher policy base (Path.join directory entry.fileName) entry s
      obtain ⟨rounds, u, hrounds, hnames, hresult⟩ :=
        ih (p.add name entry v) (t.reporting (vendoredEvent name entry v))
      refine ⟨⟨name, entry, v⟩ :: rounds, u, .cons hentry hround hrounds, by simp [hentry, hnames], ?_⟩
      rw [result_bind_of_ok hround]
      exact hresult

section

variable (h : Rounds fetcher policy catalog base directory s rounds t)
include h

theorem Rounds.forall_mem : ∀ r ∈ rounds, catalog.get? r.name = some r.entry ∧ ∃ u u' : Session S,
      (vendorOne fetcher policy base (Path.join directory r.entry.fileName) r.entry).result u =
        (.ok r.vendored, u') := by
  induction h with
  | nil => exact List.forall_mem_nil _
  | cons hentry hround _ ih => exact List.forall_mem_cons.mpr ⟨⟨hentry, _, _, hround⟩, ih⟩

theorem Rounds.get?_eq (hr : r ∈ rounds) : catalog.get? r.name = some r.entry :=
  (h.forall_mem r hr).1

theorem Rounds.filename_eq (hr : r ∈ rounds)
    (hfile : r.vendored.file? = some file) : file.filename = r.entry.fileName := by
  obtain ⟨-, _, _, hround⟩ := h.forall_mem r hr
  exact filename_of_vendorOne hround hfile

end

/-! ### A whole pass -/

section Pass

variable {root : String} {config : Config} {discovery : Discovery} {closure : Closure}
  {progress : Progress}

/-- What a pass does before its rounds: it looks through the workspace, resolves what is requested and
makes the vendor directory. -/
def opening (root : String) (config : Config) (catalog : Catalog) :
    Action (Session S) Discovery := do
  let discovery ← onWorld (Discovery.scan root config.vendor.bootstrapSet)
  let _ ← onWorld (resolve discovery.requested catalog)
  onWorld (World.onDisk (OnDisk.createDirectoriesFor .createVendorDir (config.vendorDir root)))
  return discovery

def manifestPath (root : String) (config : Config) : String :=
  Path.join (config.vendorDir root) VendorManifest.fileName

def shortageEvent (f : VendorFailure) : Event :=
  (Event.make "vendor" .error "bootstrap_unavailable").field "packages" (.ofTexts f.bootstrap)

def completeEvent : Event :=
  Event.make "vendor" .info "vendor_complete"

/-- What a pass does after its rounds: it records them and fails if bootstrap packages are not there.
-/
def closing (root : String) (config : Config) (discovery : Discovery) (closure : Closure)
    (progress : Progress) : Action (Session S) Outcome := do
  let manifest := manifestOf config discovery closure progress (← onWorld World.now)
  onWorld (World.onDisk (VendorManifest.store (manifestPath root config) manifest))
  match shortage? config.vendor.bootstrapSet closure progress with
  | some f =>
    onWorld (World.report (shortageEvent f))
    .fail (.vendor f)
  | none =>
    onWorld (World.report completeEvent)
    return { manifest, manifestPath := manifestPath root config, discovery }

/-- The rounds of a pass over the closure of what a workspace requests. -/
abbrev RoundsOf (fetcher : Fetcher S) (root : String) (config : Config) (catalog : Catalog) :
    Session S → List Round → Session S → Prop :=
  Rounds fetcher config.vendor.retryPolicy catalog (catalog.downloadBase config.vendor.downloadBase)
    (config.vendorDir root)

theorem result_resolve (requested : Text.NameSet) (catalog : Catalog) (w : World) :
    (resolve requested catalog).result w = (.ok (catalog.close requested),
      (resolutionEvents requested (catalog.close requested)).foldl World.reporting w) :=
  result_bind_of_ok (World.result_reportAll _ w) _

theorem opening_eq_ok_iff :
    (opening root config catalog).result s = (.ok discovery, t) ↔
      ∃ s₁ s₂ : Session S,
        (onWorld (Discovery.scan root config.vendor.bootstrapSet)).result s = (.ok discovery, s₁) ∧
        (onWorld (resolve discovery.requested catalog)).result s₁ =
          (.ok (catalog.close discovery.requested), s₂) ∧
        (onWorld (World.onDisk (OnDisk.createDirectoriesFor .createVendorDir
          (config.vendorDir root)))).result s₂ = (.ok (), t) := by
  constructor
  · intro h
    obtain ⟨discovery', s₁, hscan, h⟩ := result_bind_eq_ok.mp h
    obtain ⟨closure, s₂, hresolve, h⟩ := result_bind_eq_ok.mp h
    obtain ⟨⟨⟩, s₃, hdirectory, h⟩ := result_bind_eq_ok.mp h
    cases h
    refine ⟨s₁, s₂, hscan, ?_, hdirectory⟩
    rw [onWorld, result_onPart, result_resolve] at hresolve ⊢
    cases hresolve
    rfl
  · rintro ⟨s₁, s₂, hscan, hresolve, hdirectory⟩
    rw [opening, result_bind_of_ok hscan, result_bind_of_ok hresolve, result_bind_of_ok hdirectory,
      result_pure]

/-- A pass is opened if something is found in the workspace and the vendor directory can be made. -/
theorem result_opening_of_scan
    (hscan : (Discovery.scan root config.vendor.bootstrapSet).result s.world = (.ok discovery, w))
    (hclose : catalog.close discovery.requested = closure)
    (hmade : (OnDisk.createDirectoriesFor .createVendorDir (config.vendorDir root)).result
      ((resolutionEvents discovery.requested closure).foldl World.reporting w).disk = (.ok (), d)) :
    (opening root config catalog).result s = (.ok discovery, { s with
      world := { (resolutionEvents discovery.requested closure).foldl World.reporting w with
        disk := d } }) := by
  refine opening_eq_ok_iff.mpr ⟨{ s with world := w }, { s with
    world := (resolutionEvents discovery.requested closure).foldl World.reporting w }, ?_, ?_, ?_⟩
  · rw [onWorld, result_onPart, hscan]
  · rw [onWorld, result_onPart, result_resolve, hclose]
  · rw [onWorld, result_onPart, World.onDisk, result_onPart, hmade]

theorem result_run_of_opening_error (fetcher : Fetcher S)
    (h : (opening root config catalog).result s = (.error f, t)) :
    (run fetcher root config catalog).result s = (.error f, t) := by
  obtain h | ⟨discovery, s₁, hscan, h⟩ := result_bind_eq_error.mp h
  · exact result_bind_of_error h _
  obtain h | ⟨closure, s₂, hresolve, h⟩ := result_bind_eq_error.mp h
  · rw [run, result_bind_of_ok hscan, result_bind_of_error h]
  obtain h | ⟨_, s₃, -, h⟩ := result_bind_eq_error.mp h
  · rw [run, result_bind_of_ok hscan, result_bind_of_ok hresolve, result_bind_of_error h]
  · cases h

theorem exists_opening (h : (run fetcher root config catalog).result s = (.ok o, t)) :
    ∃ discovery u, (opening root config catalog).result s = (.ok discovery, u) := by
  rcases hopening : (opening root config catalog).result s with ⟨f | discovery, u⟩
  · cases h.symm.trans (result_run_of_opening_error fetcher hopening)
  · exact ⟨discovery, u, rfl⟩

theorem result_run (fetcher : Fetcher S)
    (h : (opening root config catalog).result s = (.ok discovery, t)) :
    ∃ rounds u, RoundsOf fetcher root config catalog t rounds u ∧
      rounds.map (·.name) = (catalog.close discovery.requested).packages ∧
      (vendorAll fetcher config.vendor.retryPolicy catalog
        (catalog.downloadBase config.vendor.downloadBase) (config.vendorDir root)
        (catalog.close discovery.requested).packages {}).result t =
        (.ok (.ofRounds rounds), u) ∧
      (run fetcher root config catalog).result s =
        (closing root config discovery (catalog.close discovery.requested)
          (.ofRounds rounds)).result u := by
  obtain ⟨s₁, s₂, hscan, hresolve, hdirectory⟩ := opening_eq_ok_iff.mp h
  obtain ⟨rounds, u, hrounds, hnames, hresult⟩ := exists_rounds fetcher config.vendor.retryPolicy
    catalog (catalog.downloadBase config.vendor.downloadBase) (config.vendorDir root)
    (catalog.close discovery.requested).packages {} t
  rw [Progress.foldl_add] at hresult
  refine ⟨rounds, u, hrounds, ?_, hresult, ?_⟩
  · rw [hnames, List.filter_eq_self]
    exact fun n hn => (Catalog.mem_close_packages.mp hn).2
  · rw [run, result_bind_of_ok hscan, result_bind_of_ok hresolve, result_bind_of_ok hdirectory,
      result_bind_of_ok hresult]
    rfl

/-- The manifest of a pass is stored. -/
abbrev recording (root : String) (config : Config) (discovery : Discovery) (closure : Closure)
    (progress : Progress) (w : World) : Action Disk Unit :=
  VendorManifest.store (manifestPath root config)
    (manifestOf config discovery closure progress w.clock)

theorem result_closing (s : Session S) :
    (closing root config discovery closure progress).result s =
      match (recording root config discovery closure progress s.world).result s.world.disk with
      | (.error f, d) => (.error f, s.on d)
      | (.ok (), d) =>
        match shortage? config.vendor.bootstrapSet closure progress with
        | none => (.ok ⟨manifestOf config discovery closure progress s.world.clock,
            manifestPath root config, discovery⟩,
          (s.on d).reporting completeEvent)
        | some f => (.error (.vendor f),
          (s.on d).reporting (shortageEvent f)) := by
  have hnow : (onWorld World.now).result s = (.ok s.world.clock, s) := rfl
  rw [closing, result_bind_of_ok hnow, result_bind, onWorld, result_onPart, World.onDisk,
    result_onPart]
  rcases (recording root config discovery closure progress s.world).result s.world.disk with
    ⟨f | ⟨⟩, d⟩
  · rfl
  · cases shortage? config.vendor.bootstrapSet closure progress <;> rfl

theorem closing_cases
    (h : (recording root config discovery closure progress s.world).result s.world.disk =
      (.ok (), d)) :
    (shortage? config.vendor.bootstrapSet closure progress = none ∧
      (closing root config discovery closure progress).result s =
        (.ok ⟨manifestOf config discovery closure progress s.world.clock,
            manifestPath root config, discovery⟩,
          (s.on d).reporting completeEvent)) ∨
    ∃ f, shortage? config.vendor.bootstrapSet closure progress = some f ∧
      (closing root config discovery closure progress).result s =
        (.error (.vendor f),
          (s.on d).reporting (shortageEvent f)) := by
  rw [result_closing, h]
  cases shortage? config.vendor.bootstrapSet closure progress with
  | none => exact .inl ⟨rfl, rfl⟩
  | some f => exact .inr ⟨f, rfl, rfl⟩

theorem closing_eq_ok (h : (closing root config discovery closure progress).result s = (.ok o, t)) :
    ∃ d, (recording root config discovery closure progress s.world).result s.world.disk =
        (.ok (), d) ∧
      o = ⟨manifestOf config discovery closure progress s.world.clock, manifestPath root config,
        discovery⟩ ∧
      t = (s.on d).reporting completeEvent ∧
      shortage? config.vendor.bootstrapSet closure progress = none := by
  rcases hstore : (recording root config discovery closure progress s.world).result s.world.disk
    with ⟨f | ⟨⟩, d⟩
  · rw [result_closing, hstore] at h
    cases h
  · obtain ⟨hnone, hresult⟩ | ⟨f, -, hresult⟩ := closing_cases hstore
    · cases h.symm.trans hresult
      exact ⟨d, rfl, rfl, rfl, hnone⟩
    · cases h.symm.trans hresult

end Pass

end AgentChain.Vendor
