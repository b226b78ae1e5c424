import AgentChain.Proofs.Vendor.Accounts
import AgentChain.Proofs.Vendor.Directory

/-!
# The vendor manifest describes the vendor directory

After a pass of vendoring that succeeds, the manifest has one record for each of its package files.
The file of a record is in the vendor directory, with the size and the hash of the record and with
the published hash, if there is one, unless something that is written later in the pass has its name.
Nothing keeps the file names of a catalog apart: a later package may have the same file name or be
written by way of it, and so may the manifest.
-/

namespace AgentChain.Vendor

open AgentChain.Action Disk
open Bytes (ofText)

variable {S : Type} {catalog : Catalog} {root : String} {config : Config} {s s' : Session S}

/-- The names under which a pass writes in the vendor directory. -/
def writtenNames (catalog : Catalog) (packages : List String) : List String :=
  manifestNames ++ (packages.filterMap catalog.get?).flatMap fun entry =>
    [entry.fileName, partName entry.fileName]

/-- The vendor directory of a workspace, at a place and with event logs at given places. -/
def siteOf (root : String) (config : Config) (catalog : Catalog) (discovery : Discovery) (w : World)
    (P : Place) (logPlaces : List Place) : Site where
  directory := config.vendorDir root
  place := P
  names := writtenNames catalog (catalog.close discovery.requested).packages
  logs := w.logs
  logPlaces := logPlaces

/-- Nothing that is written after a package file has its name: not the manifest and nothing of a later
package. -/
structure Spared (catalog : Catalog) (resolved : List String) (p : String × String) : Prop where
  manifest : p.2 ∉ manifestNames
  later : ∀ name ∈ resolved, p.1 < name → ∀ entry, catalog.get? name = some entry → Spares entry p.2

section

variable {x : Site} {discovery : Discovery}
  (hx : siteOf root config catalog discovery w P logPlaces = x)
include hx

theorem manifestNames_subset : manifestNames ⊆ x.names := by
  subst hx
  exact List.subset_append_left _ _

theorem covers_of_mem (hcatalog : Catalog.parse contents = .ok catalog)
    (hname : name ∈ (catalog.close discovery.requested).packages)
    (hentry : catalog.get? name = some entry) : x.Covers entry := by
  obtain ⟨hne, hslash⟩ := Catalog.fileName_of_parse hcatalog hentry
  have hnames (n : String) (hn : n ∈ [entry.fileName, partName entry.fileName]) : n ∈ x.names := by
    subst hx
    exact List.mem_append_right _ (List.mem_flatMap.mpr
      ⟨entry, List.mem_filterMap.mpr ⟨name, hname, hentry⟩, hn⟩)
  exact ⟨⟨hne, hslash⟩, hnames _ (by simp), hnames _ (by simp)⟩

end

theorem forall₂_ofRounds
    (h : ∀ r ∈ rounds, ∀ file, r.vendored.file? = some file → R (r.name, r.entry.fileName) file) :
    List.Forall₂ R (Progress.ofRounds rounds).packageFiles (Progress.ofRounds rounds).files := by
  rw [Progress.ofRounds]
  induction rounds with
  | nil => exact .nil
  | cons r rounds ih =>
    obtain ⟨hr, hrounds⟩ := List.forall_mem_cons.mp h
    cases hfile : r.vendored.file? with
    | none => simpa [Round.packageFile?, hfile] using ih hrounds
    | some file => simpa [Round.packageFile?, hfile] using ⟨hr file hfile, ih hrounds⟩

/-- Let a pass with a catalog that was accepted succeed, whatever the fetcher answers and whatever the
vendor directory held before. Let nothing under the names in use be a link or stand elsewhere too once
that directory is made, and let the event logs be elsewhere. Then there is one record for each package
file, in their order. If nothing that is written later has the name of a package file, it is in the
vendor directory as it is recorded, with the published hash in any letter case. -/
theorem manifest_describes_directory {contents : String}
    (hcatalog : Catalog.parse contents = .ok catalog) (fetcher : Download.Fetcher S)
    (hready : ∀ discovery t, (opening root config catalog).result s = (.ok discovery, t) →
      ∃ P logPlaces, (siteOf root config catalog discovery t.world P logPlaces).Ready t.world.disk)
    {o : Outcome} (hrun : (run fetcher root config catalog).result s = (.ok o, s')) :
    (∀ p ∈ o.manifest.packageFiles, ∃ file ∈ o.manifest.files, file.filename = p.2) ∧
      List.Forall₂ (fun p file => file.filename = p.2 ∧
        (Spared catalog o.manifest.resolvedPackages p → ∃ entry, catalog.get? p.1 = some entry ∧
          Describes s'.world.disk (config.vendorDir root) entry file))
        o.manifest.packageFiles o.manifest.files := by
  obtain ⟨discovery, t, hopening⟩ := exists_opening hrun
  obtain ⟨P, logPlaces, hready⟩ := hready discovery t hopening
  obtain ⟨rounds, u, hrounds, hnames, -, hresult⟩ := result_run fetcher hopening
  obtain ⟨d, hstore, rfl, rfl, -⟩ := closing_eq_ok (hresult.symm.trans hrun)
  generalize hx : siteOf root config catalog discovery t.world P logPlaces = x at hready
  have hdirectory : x.directory = config.vendorDir root := hx ▸ rfl
  have hlogs : t.world.logs = x.logs := hx ▸ rfl
  have hresolved (r : Round) (hr : r ∈ rounds) :
      r.name ∈ (catalog.close discovery.requested).packages := hnames ▸ List.mem_map_of_mem hr
  have hcovers (r : Round) (hr : r ∈ rounds) : x.Covers r.entry :=
    covers_of_mem hx hcatalog (hresolved r hr) (hrounds.get?_eq hr)
  rw [RoundsOf, ← hdirectory] at hrounds
  rw [recording, manifestPath, ← hdirectory] at hstore
  obtain ⟨hclear, hulogs, hlogged, -, hfiles⟩ := hrounds.leaves hready.clear (hlogs ▸ hready.logged)
    hcovers (hnames ▸ catalog.pairwise_lt_packages discovery.requested)
  rw [hlogs] at hulogs
  have hu : x.Ready u.world.disk := ⟨hclear, hulogs ▸ hlogged, hready.separate⟩
  obtain ⟨hd, -, hc, -⟩ := hu.storeManifest (manifestNames_subset hx) hstore
  obtain ⟨hend, hcend⟩ := hd.reporting (w := u.world.on d) hulogs completeEvent
  have hsettled := hrounds.settled (Catalog.normal_of_parse hcatalog)
  refine ⟨fun p hp => ?_, forall₂_ofRounds fun r hr file hsome =>
    ⟨hrounds.filename_eq hr hsome, fun hspared => ⟨r.entry, hrounds.get?_eq hr, ?_⟩⟩⟩
  · have hmem : p.2 ∈ (Progress.ofRounds rounds).files.map (·.filename) := by
      rw [filenames_files hsettled]
      exact List.mem_map_of_mem hp
    exact List.mem_map.mp hmem
  · -- neither the manifest nor an event is written under the name of the file
    have hname := hrounds.filename_eq hr hsome
    have hmem : file.filename ∈ x.names := hname ▸ (hcovers r hr).name_mem
    have hsegment : Path.IsSegment file.filename := hname ▸ (hcovers r hr).segment
    have hfile := hfiles r hr (hready.separate _ (hcovers r hr).name_mem) (fun r' hr' hlater =>
      hspared.later r'.name (hresolved r' hr') hlater r'.entry (hrounds.get?_eq hr')) file hsome
    rw [← hdirectory]
    refine (hfile.of_changes hu.clear hd.clear hc hmem hsegment
      fun hpair => hspared.manifest ?_).of_changes hd.clear hend.clear hcend hmem hsegment
        (hd.separate _ hmem)
    rw [hname] at hpair
    rcases hpair with hspot | hspot
    · simp [manifestNames, Site.spot_inj.mp hspot]
    · simp [manifestNames, Site.spot_inj.mp hspot]

/-- A file by way of whose name a later one is written is gone. -/
example : (((do store "/p.part" [1]; store "/p" [2]) : Action Disk Unit).result .empty).2.readBytes
    "/p.part" = .error .notFound := by
  rfl

def smallSite : Site where
  directory := "/w/vendor"
  place := [ofText "w", ofText "vendor"]
  names := writtenNames small ["foo", "micropip", "packaging"]
  logs := []
  logPlaces := []

/-- The disk of the small workspace once its vendor directory is made. -/
def madeDisk : Disk where
  entries := fresh.world.disk.entries ++ [([ofText "w", ofText "vendor"], .directory)]
  home := []

set_option maxRecDepth 100000

theorem disk_opened : opened.world.disk = madeDisk := by
  have hentries : opened.world.disk.entries = madeDisk.entries := by decide +kernel
  have htwins : opened.world.disk.twins = [] := by decide +kernel
  have hclosed : opened.world.disk.closed = [] := by decide +kernel
  have hhome : opened.world.disk.home = [] := by decide +kernel
  calc opened.world.disk
    _ = ⟨opened.world.disk.entries, opened.world.disk.home, opened.world.disk.twins,
        opened.world.disk.closed⟩ := rfl
    _ = madeDisk := by rw [hentries, htwins, hclosed, hhome]; rfl

theorem ready_smallSite : smallSite.Ready madeDisk := by
  have hsound : madeDisk.Sound := sound_of_fits (by decide +kernel)
  have hfree : ∀ name ∈ smallSite.names, madeDisk.get? (smallSite.spot name) = none := by
    decide +kernel
  exact ⟨⟨hsound, walkLinks_eq_present_directory_iff.mp (by rfl), fun name hname =>
    hsound.plain_of_free (hfree name hname)⟩, ⟨by simp [smallSite], by simp [smallSite]⟩,
    by simp [smallSite]⟩

theorem manifest_describes_small : ∃ o s' m p,
    (run bootstrapShelf "/w" {} small).result fresh = (.ok o, s') ∧
      o.manifest.packageFiles = [("micropip", "m"), ("packaging", "p")] ∧
      o.manifest.files = [m, p] ∧
      Describes s'.world.disk "/w/vendor" ⟨"micropip", "m", [], none⟩ m ∧
      Describes s'.world.disk "/w/vendor" ⟨"packaging", "p", [], none⟩ p := by
  have hfinish : (finish? bootstrapShelf found ⟨["foo", "micropip", "packaging"], []⟩ opened).any
      (fun r => r.1.manifest.packageFiles = [("micropip", "m"), ("packaging", "p")] ∧
        r.1.manifest.resolvedPackages = ["foo", "micropip", "packaging"]) = true := by
    decide +kernel
  obtain ⟨o, s', hrun, hcheck⟩ := exists_run_of_finish? result_opening_fresh close_small hfinish
  obtain ⟨hfiles, hresolved⟩ := of_decide_eq_true hcheck
  have hlogs : opened.world.logs = [] := by decide +kernel
  obtain ⟨-, hdescribed⟩ := manifest_describes_directory parse_smallCatalog bootstrapShelf
    (fun discovery t h => by
      cases result_opening_fresh.symm.trans h
      refine ⟨[ofText "w", ofText "vendor"], [], ?_⟩
      rw [siteOf, close_small, hlogs, vendorDir_small, disk_opened]
      exact ready_smallSite) hrun
  rw [hfiles, hresolved, vendorDir_small] at hdescribed
  have hlater : ∀ p ∈ [("micropip", "m"), ("packaging", "p")], p.2 ∉ manifestNames ∧
      ∀ q ∈ small.packages, p.1 < q.1 → p.2 ≠ q.2.fileName ∧ p.2 ≠ partName q.2.fileName := by
    decide +kernel
  have hspared (p : String × String) (hp : p ∈ [("micropip", "m"), ("packaging", "p")]) :
      Spared small ["foo", "micropip", "packaging"] p :=
    ⟨(hlater p hp).1, fun name _ hlt entry hentry =>
      (hlater p hp).2 (name, entry) (Json.mem_of_lookup? hentry) hlt⟩
  obtain ⟨m, _, ⟨-, hm⟩, hrest, hmfiles⟩ := List.forall₂_cons_left_iff.mp hdescribed
  obtain ⟨p, _, ⟨-, hp⟩, hnil, rfl⟩ := List.forall₂_cons_left_iff.mp hrest
  rw [List.forall₂_nil_left_iff.mp hnil] at hmfiles
  obtain ⟨_, hmentry, hm⟩ := hm (hspared _ (by simp))
  obtain ⟨_, hpentry, hp⟩ := hp (hspared _ (by simp))
  cases hmentry
  cases hpentry
  exact ⟨o, s', m, p, hrun, hfiles, hmfiles, hm, hp⟩

end AgentChain.Vendor
