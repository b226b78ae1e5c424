import AgentChain.Proofs.Discovery
import AgentChain.Proofs.Manifest
import AgentChain.Proofs.Vendor.Rounds

/-!
# The vendor manifest accounts for every package

A pass of vendoring records what it did in a manifest. Whatever the fetcher answers, every package of
the closure has its round, and each round ends up either among the package files or among the failed
packages of the manifest, under the name of its package. The pass fails exactly if a bootstrap
package is not among the package files, and its failure names those packages.
-/

namespace AgentChain.Vendor

open AgentChain.Action
open Bytes (ofText)
open Json (Ascending)
open AgentChain.Vendor.Progress (ofRounds)

variable {S : Type} {fetcher : Download.Fetcher S} {policy : Config.RetryPolicy} {catalog : Catalog}
  {base directory : String} {s t : Session S} {rounds : List Round} {requested : Text.NameSet}
  {name : String}

/-! ### The names of rounds -/

/-- A round has come either to a file of its package or to a failure of it. -/
structure Round.Settled (r : Round) : Prop where
  file_or_failure : (∃ file, r.vendored.file? = some file ∧ r.vendored.failure? = none ∧
      file.filename = r.entry.fileName) ∨
    ∃ f, r.vendored.file? = none ∧ r.vendored.failure? = some f ∧ f.package = r.name

theorem Rounds.settled (hcatalog : catalog.Normal)
    (h : Rounds fetcher policy catalog base directory s rounds t) : ∀ r ∈ rounds, r.Settled := by
  intro r hr
  obtain ⟨hentry, u, u', hround⟩ := h.forall_mem r hr
  have hname : r.entry.name = r.name := hcatalog.name_eq _ (Json.mem_of_lookup? hentry)
  refine ⟨(file?_or_failure? hround).imp id ?_⟩
  rintro ⟨f, hfile, hfailure, hpackage⟩
  exact ⟨f, hfile, hfailure, hpackage.trans hname⟩

/-- The packages that are there, in the order of their rounds. -/
def there (rounds : List Round) : List String :=
  (rounds.filter (·.vendored.file?.isSome)).map (·.name)

/-- The packages that are not there, in the order of their rounds. -/
def lacking (rounds : List Round) : List String :=
  (rounds.filter (·.vendored.file?.isNone)).map (·.name)

theorem mem_there :
    name ∈ there rounds ↔ ∃ r ∈ rounds, r.name = name ∧ r.vendored.file?.isSome := by
  simp only [there, List.mem_map, List.mem_filter]
  exact exists_congr fun r => by tauto

theorem mem_lacking :
    name ∈ lacking rounds ↔ ∃ r ∈ rounds, r.name = name ∧ r.vendored.file?.isNone := by
  simp only [lacking, List.mem_map, List.mem_filter]
  exact exists_congr fun r => by tauto

theorem keys_packageFiles (rounds : List Round) :
    (ofRounds rounds).packageFiles.map (·.1) = there rounds := by
  rw [ofRounds, there]
  induction rounds with
  | nil => rfl
  | cons r rounds ih => cases hfile : r.vendored.file? <;> simp [Round.packageFile?, hfile, ih]

theorem filenames_files (h : ∀ r ∈ rounds, r.Settled) :
    (ofRounds rounds).files.map (·.filename) = (ofRounds rounds).packageFiles.map (·.2) := by
  rw [ofRounds]
  induction rounds with
  | nil => rfl
  | cons r rounds ih =>
    obtain ⟨hr, hrounds⟩ := List.forall_mem_cons.mp h
    obtain ⟨file, hfile, -, hname⟩ | ⟨f, hfile, -⟩ := hr.file_or_failure
    · simp [Round.packageFile?, hfile, hname, ih hrounds]
    · simp [Round.packageFile?, hfile, ih hrounds]

theorem packages_failures (h : ∀ r ∈ rounds, r.Settled) :
    (ofRounds rounds).failures.map (·.package) = lacking rounds := by
  rw [ofRounds, lacking]
  induction rounds with
  | nil => rfl
  | cons r rounds ih =>
    obtain ⟨hr, hrounds⟩ := List.forall_mem_cons.mp h
    obtain ⟨file, hfile, hnone, -⟩ | ⟨f, hfile, hsome, hname⟩ := hr.file_or_failure
    · simp [hfile, hnone, ih hrounds]
    · simp [hfile, hsome, hname, ih hrounds]

theorem pairwise_lt_lacking (h : (rounds.map (·.name)).Pairwise (· < ·)) :
    (lacking rounds).Pairwise (· < ·) :=
  h.sublist (List.filter_sublist.map _)

theorem ascending_iff {α : Type} {members : List (String × α)} :
    Ascending members ↔ (members.map (·.1)).Pairwise (· < ·) :=
  List.pairwise_map.symm

/-! ### The manifest -/

/-- What the manifest of a pass says about the packages that are requested, given the rounds of the
pass. -/
structure Accounts (catalog : Catalog) (requested : Text.NameSet) (rounds : List Round)
    (m : VendorManifest) : Prop where
  resolved_eq : m.resolvedPackages = (catalog.close requested).packages
  missing_eq : m.missingPackages = (catalog.close requested).missing
  resolved_sorted : m.resolvedPackages.Pairwise (· < ·)
  missing_sorted : m.missingPackages.Pairwise (· < ·)
  /-- Every package has one round, in their order. -/
  attempted : rounds.map (·.name) = m.resolvedPackages
  packageFiles_sorted : Ascending m.packageFiles
  failedPackages_sorted : Ascending m.failedPackages
  /-- A package is among the package files exactly if its round came to a file. -/
  packageFiles_iff : ∀ name, name ∈ m.packageFiles.map (·.1) ↔
    ∃ r ∈ rounds, r.name = name ∧ r.vendored.file?.isSome
  disjoint : ∀ name ∈ m.packageFiles.map (·.1), name ∉ m.failedPackages.map (·.1)
  together : ∀ name, name ∈ m.resolvedPackages ↔
    name ∈ m.packageFiles.map (·.1) ∨ name ∈ m.failedPackages.map (·.1)
  /-- There is one file for each package file, in the order of the packages. -/
  files_eq : m.files.map (·.filename) = m.packageFiles.map (·.2)

variable {config : Config} {discovery : Discovery} {time : Timestamp} {bootstrap : Text.NameSet}
  {m : VendorManifest}

theorem keys_failedPackages (hrounds : ∀ r ∈ rounds, r.Settled)
    (hsorted : (rounds.map (·.name)).Pairwise (· < ·)) (closure : Closure) :
    (manifestOf config discovery closure (.ofRounds rounds) time).failedPackages.map (·.1) =
      lacking rounds := by
  have hkeys : ((ofRounds rounds).failures.map fun f => (f.package, f.message)).map (·.1) =
      lacking rounds := by
    rw [List.map_map]
    exact packages_failures hrounds
  rw [manifestOf,
    Json.sortMembers_of_ascending (ascending_iff.mpr (hkeys ▸ pairwise_lt_lacking hsorted)), hkeys]

theorem accounts_of_rounds (hrounds : ∀ r ∈ rounds, r.Settled)
    (hnames : rounds.map (·.name) = (catalog.close discovery.requested).packages) :
    Accounts catalog discovery.requested rounds (manifestOf config discovery
      (catalog.close discovery.requested) (.ofRounds rounds) time) := by
  have hresolved := catalog.pairwise_lt_packages discovery.requested
  have hsorted : (rounds.map (·.name)).Pairwise (· < ·) := hnames ▸ hresolved
  have hnodup : (rounds.map (·.name)).Nodup :=
    hsorted.imp fun h => by rintro rfl; exact String.lt_irrefl _ h
  have hthere := keys_packageFiles rounds
  have hlacking : (manifestOf config discovery (catalog.close discovery.requested)
      (.ofRounds rounds) time).failedPackages.map (·.1) = lacking rounds :=
    keys_failedPackages hrounds hsorted _
  refine ⟨rfl, rfl, hresolved, catalog.pairwise_lt_missing _, hnames,
    ascending_iff.mpr (hthere ▸ hsorted.sublist (List.filter_sublist.map _)),
    ascending_iff.mpr (hlacking ▸ pairwise_lt_lacking hsorted), fun name => hthere ▸ mem_there,
    fun name hfile hfailed => ?_, fun name => ?_, filenames_files hrounds⟩
  · rw [hlacking] at hfailed
    obtain ⟨r, hr, rfl, hsome⟩ := mem_there.mp (hthere ▸ hfile)
    obtain ⟨r', hr', hname, hnone⟩ := mem_lacking.mp hfailed
    obtain rfl := List.inj_on_of_nodup_map hnodup hr' hr hname
    simp_all
  · rw [hlacking]
    change name ∈ (catalog.close discovery.requested).packages ↔
      name ∈ (ofRounds rounds).packageFiles.map (·.1) ∨ name ∈ lacking rounds
    rw [hthere, ← hnames, mem_there, mem_lacking, List.mem_map]
    constructor
    · rintro ⟨r, hr, rfl⟩
      cases hfile : r.vendored.file? with
      | none => exact .inr ⟨r, hr, rfl, by rw [hfile]; rfl⟩
      | some file => exact .inl ⟨r, hr, rfl, by rw [hfile]; rfl⟩
    · rintro (⟨r, hr, hname, -⟩ | ⟨r, hr, hname, -⟩) <;> exact ⟨r, hr, hname⟩

/-! ### Bootstrap packages that are not there -/

/-- The bootstrap packages that are missing or failed, by the manifest of a pass. -/
def unavailable (bootstrap : Text.NameSet) (m : VendorManifest) : List String :=
  bootstrap.filter fun name =>
    name ∈ m.missingPackages ∨ name ∈ m.failedPackages.map (·.1)

/-- The bootstrap packages that are missing, by the manifest of a pass. -/
def uncatalogued (bootstrap : Text.NameSet) (m : VendorManifest) : List String :=
  bootstrap.filter fun name => name ∈ m.missingPackages

theorem mem_unavailable : name ∈ unavailable bootstrap m ↔ name ∈ bootstrap ∧
      (name ∈ m.missingPackages ∨ name ∈ m.failedPackages.map (·.1)) := by
  rw [unavailable, List.mem_filter, decide_eq_true_iff]

theorem mem_uncatalogued :
    name ∈ uncatalogued bootstrap m ↔ name ∈ bootstrap ∧ name ∈ m.missingPackages := by
  rw [uncatalogued, List.mem_filter, decide_eq_true_iff]

theorem shortage?_eq (hbootstrap : bootstrap.Pairwise (· < ·))
    {closure} (hmissing : closure.missing.Pairwise (· < ·))
    (hm : m.missingPackages = closure.missing) {progress}
    (hfailed : m.failedPackages.map (·.1) = progress.failures.map (·.package)) :
    shortage? bootstrap closure progress =
      if unavailable bootstrap m = [] then none
      else some { bootstrap := unavailable bootstrap m
                  uncatalogued := uncatalogued bootstrap m
                  downloads := progress.failures } := by
  have huncatalogued : closure.missing.filter (fun name => bootstrap.contains name) =
      uncatalogued bootstrap m := by
    refine Text.NameSet.eq_of_mem_iff (hmissing.filter _) (hbootstrap.filter _) fun name => ?_
    rw [List.mem_filter, List.contains_iff_mem, mem_uncatalogued, hm, and_comm]
  have hunavailable : Text.NameSet.ofList (uncatalogued bootstrap m ++
      (progress.failures.map (·.package)).filter fun name => bootstrap.contains name) =
      unavailable bootstrap m := by
    refine Text.NameSet.eq_of_mem_iff (Text.NameSet.pairwise_lt_ofList _) (hbootstrap.filter _)
      fun name => ?_
    rw [Text.NameSet.mem_ofList, ← hfailed, List.mem_append, List.mem_filter, mem_uncatalogued,
      List.contains_iff_mem, mem_unavailable]
    tauto
  simp only [shortage?, huncatalogued, hunavailable, List.isEmpty_iff]

/-! ### A whole pass -/

theorem Accounts.mem_packageFiles (h : Accounts catalog discovery.requested rounds m)
    (hopening : (opening root config catalog).result s = (.ok discovery, t))
    (hnone : unavailable config.vendor.bootstrapSet m = [])
    (hname : name ∈ config.vendor.bootstrapSet) : name ∈ m.packageFiles.map (·.1) := by
  -- a bootstrap package is requested, so it is missing or has a round
  obtain ⟨s₁, s₂, hscan, -, -⟩ := opening_eq_ok_iff.mp hopening
  have hreaches : catalog.Reaches discovery.requested name :=
    .requested (Discovery.mem_requested_of_scan (Session.of_result_onWorld hscan).1 hname)
  have hthere : ¬(name ∈ m.missingPackages ∨ name ∈ m.failedPackages.map (·.1)) := fun h =>
    List.not_mem_nil (hnone ▸ mem_unavailable.mpr ⟨hname, h⟩)
  obtain ⟨hmissing, hfailed⟩ := not_or.mp hthere
  rw [h.missing_eq, Catalog.mem_close_missing, not_and] at hmissing
  refine ((h.together name).mp ?_).resolve_right hfailed
  rw [h.resolved_eq, Catalog.mem_close_packages]
  exact ⟨hreaches, Option.isSome_iff_ne_none.mpr (by simpa using hmissing hreaches)⟩

theorem accounts_of_pass {contents time} (hcatalog : Catalog.parse contents = .ok catalog)
    (hrounds : RoundsOf fetcher root config catalog t rounds u)
    (hnames : rounds.map (·.name) = (catalog.close discovery.requested).packages)
    (hm : manifestOf config discovery (catalog.close discovery.requested) (.ofRounds rounds) time = m) :
    Accounts catalog discovery.requested rounds m ∧
      m.failedPackages.map (·.1) = (ofRounds rounds).failures.map (·.package) ∧
      shortage? config.vendor.bootstrapSet (catalog.close discovery.requested) (.ofRounds rounds) =
        if unavailable config.vendor.bootstrapSet m = [] then none
        else some ⟨unavailable config.vendor.bootstrapSet m, uncatalogued config.vendor.bootstrapSet m,
          (ofRounds rounds).failures⟩ := by
  have hsettled := hrounds.settled (Catalog.normal_of_parse hcatalog)
  have haccounts : Accounts catalog discovery.requested rounds m :=
    hm ▸ accounts_of_rounds hsettled hnames
  have hfailed : m.failedPackages.map (·.1) =
      (ofRounds rounds).failures.map (·.package) := by
    rw [← hm, packages_failures hsettled]
    exact keys_failedPackages hsettled (hnames ▸ catalog.pairwise_lt_packages _) _
  exact ⟨haccounts, hfailed, shortage?_eq (Text.NameSet.pairwise_lt_ofList _)
    (catalog.pairwise_lt_missing discovery.requested) haccounts.missing_eq hfailed⟩

/-- A workspace at `/w` with one agent and what is at the name of its requirement file, before anything
is vendored. -/
def workspace (requirements : Entry) : Session (List String) where
  world :=
    { disk :=
        { entries := [([ofText "w"], .directory),
            ([ofText "w", ofText "agent"], .directory),
            ([ofText "w", ofText "agent", ofText "requirements.txt"], requirements)]
          home := [] }
      reported := []
      logs := []
      clock := ⟨0⟩
      supply := fun _ => ""
      drawn := 0 }
  state := []

/-- The small workspace, whose agent needs a package. -/
def fresh : Session (List String) :=
  workspace (.file (ofText "Foo"))

/-- A catalog with the bootstrap packages and one more. -/
def smallCatalog : String :=
  "[[\"1\",\"3\"],\x7b\"micropip\":[\"m\"],\"packaging\":[\"p\"],\"foo\":[\"f\"]\x7d]"

def small : Catalog :=
  ⟨"1", "3", [("foo", ⟨"foo", "f", [], none⟩), ("micropip", ⟨"micropip", "m", [], none⟩),
    ("packaging", ⟨"packaging", "p", [], none⟩)]⟩

def found : Discovery where
  agents := [⟨"root", "/w/agent", "agents.root.main"⟩]
  rootAgent := "root"
  requirements := [⟨"root", "foo", none⟩]
  requested := ["foo", "micropip", "packaging"]

theorem close_small : small.close found.requested = ⟨["foo", "micropip", "packaging"], []⟩ := by
  have hreached : small.reached found.requested = found.requested := by
    simp [found, Catalog.reached, Closure.reach, Catalog.mentioned, small, Catalog.needs,
      Catalog.get?, Closure.without, Json.lookup?]
  rw [Catalog.close, hreached]
  decide +kernel

/-- A fetcher that knows the files of the bootstrap packages only. -/
def bootstrapShelf : Download.Fetcher (List String) :=
  Download.shelf [("m", ofText "M"), ("p", ofText "P")]

/-- What a pass over the workspace at `/w` leaves, from its rounds on. -/
def finish? (fetcher : Download.Fetcher (List String)) (discovery : Discovery) (closure : Closure)
    (t : Session (List String)) : Option (Outcome × Session (List String)) :=
  match (vendorAll fetcher ({} : Config).vendor.retryPolicy small
      (small.downloadBase ({} : Config).vendor.downloadBase) (({} : Config).vendorDir "/w")
      closure.packages {}).result t with
  | (.ok progress, u) =>
    match (closing "/w" {} discovery closure progress).result u with
    | (.ok o, s') => some (o, s')
    | (.error _, _) => none
  | (.error _, _) => none

section Finish

variable {closure : Closure} {s t : Session (List String)} {fetcher : Download.Fetcher (List String)}
  (hopening : (opening "/w" {} small).result s = (.ok discovery, t))
  (hclose : small.close discovery.requested = closure)
include hopening hclose

theorem result_run_of_finish? {o s'} (h : finish? fetcher discovery closure t = some (o, s')) :
    (run fetcher "/w" {} small).result s = (.ok o, s') := by
  obtain ⟨rounds, u, -, -, hall, hrun⟩ := result_run fetcher hopening
  rw [hclose] at hall hrun
  rw [finish?, hall] at h
  rw [hrun]
  rcases hclosing : (closing "/w" {} discovery closure (.ofRounds rounds)).result u with
    ⟨f | o, s'⟩ <;> simp only [hclosing] at h
  · cases h
  · cases h
    rfl

theorem exists_run_of_finish? {check : Outcome × Session (List String) → Bool}
    (h : (finish? fetcher discovery closure t).any check) :
    ∃ o s', (run fetcher "/w" {} small).result s = (.ok o, s') ∧ check (o, s') := by
  obtain ⟨⟨o, s'⟩, hfinish, hcheck⟩ := (Option.any_eq_true _ _).mp h
  exact ⟨o, s', result_run_of_finish? hopening hclose hfinish, hcheck⟩

end Finish

/-- A small workspace once a pass is opened in it. -/
def openedFrom (s : Session (List String)) (requested : List String) : Session (List String) where
  world :=
    let w := (resolutionEvents requested ⟨requested, []⟩).foldl World.reporting
      ((Discovery.scan "/w" ["micropip", "packaging"]).result s.world).2
    { w with disk := ((OnDisk.createDirectoriesFor .createVendorDir "/w/vendor").result w.disk).2 }
  state := []

def opened : Session (List String) :=
  openedFrom fresh found.requested

set_option maxRecDepth 100000

theorem parse_smallCatalog : Catalog.parse smallCatalog = .ok small := by
  decide +kernel

theorem vendorDir_small : ({} : Config).vendorDir "/w" = "/w/vendor" := by
  decide +kernel

theorem result_opening_fresh : (opening "/w" {} small).result fresh = (.ok found, opened) :=
  result_opening_of_scan (Prod.ext (by decide +kernel) rfl) close_small
    (Prod.ext (by decide +kernel) rfl)

end AgentChain.Vendor
