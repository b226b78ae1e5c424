import AgentChain.Proofs.Vendor.Described

/-!
# Vendoring again

A pass of vendoring that fetched everything leaves nothing for a second pass to do. The second pass
finds the same packages in the workspace, keeps every file of the vendor directory, and replaces the
manifest by one that differs in the time. It asks the fetcher for nothing, whatever the fetcher is.

The second pass looks through the workspace again. What it finds there must not come from what the
first pass wrote: a requirement file that is led into the vendor directory, or an agent directory
that is made on the way to it, changes what is requested.
-/

namespace AgentChain.Vendor

open AgentChain.Action Disk
open AgentChain.Path (join)
open Bytes (ofText)
open Download (Fetcher sameHash shelf)
open VendorManifest (fileName)
open Discovery (Unread scan agentsIn)

variable {S : Type} {fetcher : Fetcher S} {policy : Config.RetryPolicy} {catalog : Catalog}
  {base directory target root : String} {config : Config} {entry : Catalog.Entry} {s t : Session S}
  {v : Vendored} {rounds : List Round} {x : Site} {b d d' D : Disk} {w : World} {T : Place → Prop}
  {discovery : Discovery} {file : FileEntry}

/-! ### What a pass leaves -/

theorem sameHash_of_vendorOne
    (h : (vendorOne fetcher policy base target entry).result s = (.ok v, t))
    (hfile : v.file? = some file) :
    entry.sha256.all (sameHash · file.sha256) := by
  obtain ⟨_, hkept, rfl, -⟩ | ⟨_, _, -, -, rfl, -⟩ |
      ⟨body, _, _, _, -, hfetch, -, -, ⟨-, rfl⟩ | ⟨_, -, rfl⟩⟩ := vendorOne_cases h <;> cases hfile
  · obtain ⟨contents, -, -, hhash, rfl⟩ := reusable_eq_some hkept
    exact hhash
  · cases hsome : entry.sha256 with
    | none => rfl
    | some hash =>
      rw [hsome] at hfetch
      rw [Option.all_some, Download.sameHash_comm]
      exact sameHash_of_fetch hfetch

theorem reusable_of_readBytes (hread : d.readBytes target = .ok c) (hne : c ≠ [])
    (hhash : entry.sha256.all (sameHash · (Sha256.hex c))) :
    reusable entry target d = some (recordOf entry c) := by
  rw [reusable, openFile_of_readBytes hread]
  simp only [Opened.read]
  rw [if_neg (by simpa using hne), if_pos hhash]
  rfl

/-! ### Quiet worlds -/

/-- The places at which files are written: no directory stood there when the pass began to write. -/
def Site.fills (x : Site) (b : Disk) (q : Place) : Bool :=
  x.writes q && b.get? q ≠ some .directory

/-- A ready disk with the directories of another one, which alone are closed. -/
structure Site.Tidy (x : Site) (b d : Disk) : Prop where
  ready : x.Ready d
  directory : ∀ q, d.get? q = some .directory ↔ b.get? q = some .directory
  closed : ∀ q ∈ d.closed, d.get? q = some .directory

namespace Site.Tidy

theorem onlyFiles (h : x.Tidy b d) : OnlyFiles (x.fills b) d where
  file q e hq he := by
    obtain ⟨hwrites, hdir⟩ := Bool.and_eq_true_iff.mp hq
    cases e with
    | file c => exact ⟨c, rfl⟩
    | directory => exact absurd ((h.directory q).mp he) (of_decide_eq_true hdir)
    | symlink t => exact absurd he ((h.ready.plain_of_writes hwrites).link t)
  opened q hq hclosed := by
    obtain ⟨-, hdir⟩ := Bool.and_eq_true_iff.mp hq
    exact of_decide_eq_true hdir ((h.directory q).mp (h.closed q hclosed))

/-- What a pass changes are files. -/
theorem changes (h : x.Tidy b d) (h' : x.Ready d') (hc : Changes T d d')
    (hsame : SameDirectories d d') (hT : ∀ q, T q → x.writes q) :
    x.Tidy b d' ∧ Alike (x.fills b) d d' := by
  have htidy : x.Tidy b d' := ⟨h', fun q => (hsame.directory q).trans (h.directory q), fun q hq =>
    (hsame.directory q).mpr (h.closed q (hc.closed q hq))⟩
  refine ⟨htidy, h.onlyFiles, htidy.onlyFiles, fun q hq => ?_, fun q =>
    ⟨hc.closed q, fun hq => hsame.closed q (h.closed q hq) hq⟩, hc.home⟩
  by_cases hdir : d.get? q = some .directory
  · rw [hdir, (hsame.directory q).mpr hdir]
  · refine hc.entry q fun hTq => hq ?_
    rw [Site.fills, hT q hTq, Bool.true_and]
    exact decide_eq_true fun hb => hdir ((h.directory q).mpr hb)

end Site.Tidy

/-- Since a disk was as it is given, nothing but event logs has changed. -/
structure Site.Quiet (x : Site) (b D : Disk) (w : World) : Prop where
  tidy : x.Tidy b w.disk
  logs : w.logs = x.logs
  changes : Changes (· ∈ x.logPlaces) D w.disk
  alike : Alike (x.fills b) D w.disk

theorem Site.Tidy.quiet (h : x.Tidy b w.disk) (hlogs : w.logs = x.logs) : x.Quiet b w.disk w :=
  ⟨h, hlogs, .refl _ _, (h.changes h.ready (.refl (fun _ => False) _)
    (Steady.frame.refl _ h.ready.sound) (by simp)).2⟩

theorem Site.Quiet.reporting (h : x.Quiet b D w) (e : Event) : x.Quiet b D (w.reporting e) := by
  obtain ⟨hready, hc⟩ := h.tidy.ready.reporting h.logs e
  obtain ⟨htidy, halike⟩ := h.tidy.changes hready hc (World.steady_reporting w e h.tidy.ready.sound)
    fun _ hq => Site.writes_iff.mpr (.inl hq)
  exact ⟨htidy, h.logs, h.changes.trans hc, h.alike.trans halike⟩

theorem Site.Quiet.reported (h : x.Quiet b D w) (hw : World.Reported w w') : x.Quiet b D w' :=
  hw.moves (R := fun w w' => x.Quiet b D w → x.Quiet b D w')
    (frame_keeps _) (fun _ e h => h.reporting e) h

/-! ### The manifest -/

section Manifest

variable {m m' : VendorManifest}

variable (h : x.Ready d) (hstore : (x.storing m).result d = (.ok (), d'))
include h hstore

theorem Site.Ready.storing_eq_ok :
    (OnDisk.createParent (join x.directory fileName)).result d = (.ok (), d) ∧
      ∃ d₁, d.writeFile (join x.directory manifestPart)
          (ofText (m.toValue.pretty ++ "\n")) = .ok d₁ ∧
        d₁.rename (join x.directory manifestPart) (join x.directory fileName) = .ok d' := by
  obtain ⟨d₁, d₂, hparent, hwrite, hrename⟩ := Storage.result_writeDocument_eq_ok.mp hstore
  have hsame := OnDisk.result_createParent_of_leadsTo (s := fileName) (by decide) h.clear.leads
  rw [hparent] at hsame
  obtain rfl : d₁ = d := hsame
  rw [temporary_manifest] at hwrite hrename
  exact ⟨hparent, d₂, hwrite, hrename⟩

theorem Site.Ready.exists_storing (hx : manifestNames ⊆ x.names) (hD : x.Ready D)
    (halike : Alike (x.fills b) d D) (m' : VendorManifest) :
    ∃ D', (x.storing m').result D = (.ok (), D') := by
  obtain ⟨hparent, -⟩ := h.storing_eq_ok hstore
  have hplain (name : String) (hname : name ∈ manifestNames) : d.Plain (x.spot name) :=
    h.plain _ (hx hname)
  have hlinks : Storage.Unlinked d (join x.directory fileName) := by
    intro d₁ hd₁ target
    cases hparent.symm.trans hd₁
    rw [temporary_manifest]
    have hmanifest := hplain fileName (by simp [manifestNames])
    have htemporary := hplain manifestPart (by simp [manifestNames])
    exact ⟨(aims_join (by decide) h.clear.leads).look?_ne_symlink hmanifest.link,
      (aims_join (by decide) h.clear.leads).look?_ne_symlink htemporary.link⟩
  obtain ⟨d₁, hd₁, ⟨p, hp⟩, q, hq⟩ := Storage.takes_of_result_writeDocument h.sound hlinks hstore
  cases hparent.symm.trans hd₁
  have htakes : Storage.Takes D (join x.directory fileName) :=
    ⟨D, OnDisk.result_createParent_of_keeps h.sound hparent halike.keeps halike.home,
      ⟨p, hp.of_alike h.sound halike⟩, q, hq.of_alike h.sound halike⟩
  obtain ⟨D', hstored, -⟩ := Storage.exists_result_writeDocument hD.sound htakes m'.toValue
  exact ⟨D', hstored⟩

end Manifest

/-! ### Rounds that keep every file -/

/-- Rounds in which every file can be kept ask the fetcher for nothing and come to the same files.
-/
theorem result_vendorAll_of_reusable {I : Session S → Prop}
    (hreport : ∀ s e, I s → I (s.reporting e)) (policy : Config.RetryPolicy) (base : String)
    (hentry : ∀ r ∈ rounds, catalog.get? r.name = some r.entry)
    (hkept : ∀ s, I s → ∀ r ∈ rounds, ∃ file, r.vendored.file? = some file ∧
      reusable r.entry (join directory r.entry.fileName) s.world.disk = some file)
    (hs : I s) (p : Progress) :
    ∃ t, I t ∧ t.state = s.state ∧ ∀ fetcher : Fetcher S,
      (vendorAll fetcher policy catalog base directory (rounds.map (·.name)) p).result s =
        (.ok (rounds.foldl (fun p r => p.add r.name r.entry r.vendored) p), t) := by
  induction rounds generalizing s p with
  | nil => exact ⟨s, hs, rfl, fun _ => rfl⟩
  | cons r rounds ih =>
    obtain ⟨hr, hrest⟩ := List.forall_mem_cons.mp hentry
    obtain ⟨file, hfile, hreusable⟩ := hkept s hs r List.mem_cons_self
    have hadd : p.add r.name r.entry (.reused file) = p.add r.name r.entry r.vendored := by
      cases hv : r.vendored <;> rw [hv] at hfile <;> cases hfile <;> rfl
    obtain ⟨t, ht, hstate, hall⟩ := ih hrest
      (fun s hs r' hr' => hkept s hs r' (List.mem_cons_of_mem _ hr'))
      (hreport s (vendoredEvent r.name r.entry (.reused file)) hs)
      (p.add r.name r.entry (.reused file))
    refine ⟨t, ht, hstate, fun fetcher => ?_⟩
    have hone : (vendorOne fetcher policy base (join directory r.entry.fileName)
        r.entry).result s = (.ok (.reused file), s) := by
      rw [vendorOne, result_ofResult, hreusable]
    rw [List.map_cons, vendorAll, hr]
    refine (result_bind_of_ok hone _).trans ((hall fetcher).trans ?_)
    rw [List.foldl_cons, hadd]

/-! ### A second pass -/

/-- A workspace whose vendor directory is made, and in which what a pass finds does not come from
what it writes: nothing under the names in use is a link or stands elsewhere too, the event logs are
elsewhere, no requirement file is or would be at one of these places, and the same packages are
found as before the directory was made. Nothing but directories is closed. -/
structure Undisturbed (root : String) (config : Config) (discovery : Discovery) (x : Site)
    (w : World) : Prop where
  ready : x.Ready w.disk
  closed : ∀ q ∈ w.disk.closed, w.disk.get? q = some .directory
  unread : Unread x.writes root w.disk
  found : ∃ again w', (scan root config.vendor.bootstrapSet).result w = (.ok again, w') ∧
    again.requested = discovery.requested

theorem Undisturbed.tidy (h : Undisturbed root config discovery x w) : x.Tidy w.disk w.disk :=
  ⟨h.ready, fun _ => .rfl, h.closed⟩

/-- A file is in a directory, not empty and as it is recorded. -/
def Holds (d : Disk) (directory : String) (file : FileEntry) : Prop :=
  ∃ c, d.readBytes (join directory file.filename) = .ok c ∧ c ≠ [] ∧
    file.size = UInt64.ofNat c.length ∧ file.sha256 = Sha256.hex c

instance (d : Disk) (directory : String) (file : FileEntry) : Decidable (Holds d directory file) :=
  match h : d.readBytes (join directory file.filename) with
  | .ok c => decidable_of_iff
      (c ≠ [] ∧ file.size = UInt64.ofNat c.length ∧ file.sha256 = Sha256.hex c) (by simp [Holds, h])
  | .error f => isFalse fun ⟨_, hread, _⟩ => by cases h.symm.trans hread

/-- What a pass leaves in the vendor directory when every package is there. -/
structure Finished (catalog : Catalog) (x : Site) (b : Disk) (rounds : List Round) (D : Disk) :
    Prop where
  tidy : x.Tidy b D
  covered : manifestNames ⊆ x.names
  made : D.HasDirectory x.directory
  /-- Nothing stands at the temporary name of the manifest. -/
  free : D.get? (x.spot manifestPart) = none
  /-- The manifest could be written. -/
  stored : ∃ d m d', x.Ready d ∧ Alike (x.fills b) d D ∧ (x.storing m).result d = (.ok (), d')
  entries : ∀ r ∈ rounds, catalog.get? r.name = some r.entry ∧ x.Covers r.entry
  held : ∀ r ∈ rounds, ∃ file, r.vendored.file? = some file ∧ file.filename = r.entry.fileName ∧
    r.entry.sha256.all (sameHash · file.sha256) = true ∧ Holds D x.directory file

theorem reusable_of_holds (h : Holds d directory file) (hname : file.filename = entry.fileName)
    (hhash : entry.sha256.all (sameHash · file.sha256)) :
    reusable entry (join directory entry.fileName) d = some file := by
  obtain ⟨c, hread, hne, hsize, hsha⟩ := h
  rw [hname] at hread
  rw [hsha] at hhash
  rw [reusable_of_readBytes hread hne hhash, recordOf, ← hname, ← hsize, ← hsha]

theorem Holds.of_quiet (h : Holds D x.directory file) (hD : x.Ready D)
    (hw : x.Quiet b D w) (hname : file.filename ∈ x.names) (hs : Path.IsSegment file.filename) :
    Holds w.disk x.directory file := by
  obtain ⟨c, hread, hrest⟩ := h
  have hunlogged := hD.separate _ hname
  exact ⟨c, hD.clear.readBytes_of_changes hw.tidy.ready.clear hw.changes hname hs hunlogged hread, hrest⟩

theorem Finished.reusable (h : Finished catalog x b rounds D) (hw : x.Quiet b D w) :
    ∀ r ∈ rounds, ∃ file, r.vendored.file? = some file ∧
      Vendor.reusable r.entry (join x.directory r.entry.fileName) w.disk = some file := by
  intro r hr
  obtain ⟨-, hcovers⟩ := h.entries r hr
  obtain ⟨file, hfile, hname, hhash, hheld⟩ := h.held r hr
  have hheld' := hheld.of_quiet h.tidy.ready hw (hname ▸ hcovers.name_mem) (hname ▸ hcovers.segment)
  exact ⟨file, hfile, reusable_of_holds hheld' hname hhash⟩

theorem Finished.exists_opening (h : Finished catalog x w.disk rounds D)
    (hdirectory : x.directory = config.vendorDir root)
    (hundisturbed : Undisturbed root config discovery x w) (hlogs : w.logs = x.logs)
    (halike : Alike (x.fills w.disk) w.disk D) (hs : x.Quiet w.disk D s.world) :
    ∃ again t, (opening root config catalog).result s = (.ok again, t) ∧
      again.requested = discovery.requested ∧ x.Quiet w.disk D t.world ∧ t.state = s.state := by
  obtain ⟨again, w', hscan, hrequested⟩ := hundisturbed.found
  -- both workspaces are looked through on disks that differ in the files that are written
  have hquiet := hundisturbed.tidy.quiet hlogs
  have hunread : Unread (x.fills w.disk) root w.disk :=
    hundisturbed.unread.mono fun q hq => (Bool.and_eq_true_iff.mp hq).1
  obtain ⟨v, hscan'⟩ := Discovery.exists_scan_of_alike
    (I := fun v => ∃ E, Alike (x.fills w.disk) w.disk E ∧ x.Quiet w.disk E v)
    (fun v e ⟨E, hE, hv⟩ => ⟨E, hE, hv.reporting e⟩)
    (fun v ⟨E, hE, hv⟩ => ⟨hv.tidy.ready.sound, hE.trans hv.alike⟩)
    hundisturbed.ready.sound hunread ⟨w.disk, hquiet.alike, hquiet⟩ ⟨D, halike, hs⟩ hscan
  have hv : x.Quiet w.disk D v := hs.reported ((Discovery.reported_scan _ _).of_result hscan')
  generalize hu : (resolutionEvents again.requested (catalog.close again.requested)).foldl
    World.reporting v = u
  have hu' : x.Quiet w.disk D u := hv.reported ⟨_, hu.symm⟩
  have hmade : u.disk.HasDirectory x.directory := hu'.alike.keeps.hasDirectory hu'.alike.home h.made
  refine ⟨again, { s with world := u }, opening_eq_ok_iff.mpr ⟨{ s with world := v },
    { s with world := u }, ?_, ?_, ?_⟩, hrequested, hu', rfl⟩
  · rw [Session.onWorld, result_onPart, hscan']
  · rw [Session.onWorld, result_onPart, result_resolve, hu]
  · rw [Session.onWorld, result_onPart, World.onDisk, result_onPart, ← hdirectory,
      OnDisk.result_createDirectoriesFor_of_hasDirectory hmade]

theorem Finished.exists_run (h : Finished catalog x b rounds D)
    (hdirectory : x.directory = config.vendorDir root)
    (hopening : (opening root config catalog).result s = (.ok again, t)) (ht : x.Quiet b D t.world)
    (hnames : rounds.map (·.name) = (catalog.close again.requested).packages)
    (hshortage : shortage? config.vendor.bootstrapSet (catalog.close again.requested)
      (.ofRounds rounds) = none) :
    ∃ o s', (∀ fetcher : Fetcher S,
        (run fetcher root config catalog).result s = (.ok o, s')) ∧
      s'.state = t.state ∧
      (∃ time, o.manifest = manifestOf config again (catalog.close again.requested)
        (.ofRounds rounds) time) ∧
      ∀ q, q ∉ x.logPlaces → q ≠ x.spot fileName → s'.world.disk.get? q = D.get? q := by
  obtain ⟨u, hu, hstate, hall⟩ := result_vendorAll_of_reusable
    (I := fun s : Session S => x.Quiet b D s.world) (fun _ e hs => hs.reporting e)
    config.vendor.retryPolicy (catalog.downloadBase config.vendor.downloadBase)
    (fun r hr => (h.entries r hr).1) (fun _ hs => h.reusable hs) ht {}
  obtain ⟨d, m, _, hd, halike, hstored⟩ := h.stored
  obtain ⟨d', hstore⟩ := hd.exists_storing hstored h.covered hu.tidy.ready (halike.trans hu.alike)
    (manifestOf config again (catalog.close again.requested) (.ofRounds rounds) u.world.clock)
  obtain ⟨hready', -, hc, hfree⟩ := hu.tidy.ready.storeManifest h.covered hstore
  obtain ⟨-, hcend⟩ := hready'.reporting (w := u.world.on d') hu.logs completeEvent
  rw [Site.storing, hdirectory, ← manifestPath] at hstore
  obtain ⟨-, hclosing⟩ | ⟨f, hsome, -⟩ := closing_cases hstore
  swap
  · cases hshortage.symm.trans hsome
  refine ⟨_, _, fun fetcher => .trans ?_ hclosing, hstate, ⟨u.world.clock, rfl⟩,
    fun q hlog hmanifest => ?_⟩
  · obtain ⟨rounds', u', -, -, hrounds, hrun⟩ := result_run fetcher hopening
    rw [← hnames, ← hdirectory, hall fetcher, Progress.foldl_add] at hrounds
    obtain ⟨hprogress, rfl⟩ := Prod.mk.inj hrounds
    rw [hrun, ← Except.ok.inj hprogress]
    rfl
  · refine (hcend.entry q hlog).trans ?_
    by_cases htemporary : q = x.spot manifestPart
    · rw [htemporary, h.free]
      exact hfree rfl
    · refine (hc.entry q ?_).trans (hu.changes.entry q hlog)
      rintro (hq | hq)
      · exact hmanifest hq
      · exact htemporary hq

theorem isSome_file?_of_failedPackages {time} {closure} (hrounds : ∀ r ∈ rounds, r.Settled)
    (hsorted : (rounds.map (·.name)).Pairwise (· < ·))
    (h : (manifestOf config discovery closure (.ofRounds rounds) time).failedPackages = []) :
    ∀ r ∈ rounds, ∃ file, r.vendored.file? = some file := by
  have hkeys : (manifestOf config discovery closure (.ofRounds rounds) time).failedPackages.map
      (·.1) = lacking rounds := keys_failedPackages hrounds hsorted closure
  rw [h, List.map_nil] at hkeys
  intro r hr
  cases hfile : r.vendored.file? with
  | some file => exact ⟨file, rfl⟩
  | none =>
    have hmem : r.name ∈ lacking rounds := mem_lacking.mpr ⟨r, hr, rfl, by rw [hfile]; rfl⟩
    rw [← hkeys] at hmem
    cases hmem

theorem exists_finished {contents} (hcatalog : Catalog.parse contents = .ok catalog) {s'}
    (hopening : (opening root config catalog).result s = (.ok discovery, t)) {P}
    {logPlaces} (hx : siteOf root config catalog discovery t.world P logPlaces = x)
    (hundisturbed : Undisturbed root config discovery x t.world)
    {o} (hrun : (run fetcher root config catalog).result s = (.ok o, s'))
    (hfailed : o.manifest.failedPackages = [])
    (hfiles : ∀ file ∈ o.manifest.files, Holds s'.world.disk (config.vendorDir root) file) :
    ∃ rounds time, Finished catalog x t.world.disk rounds s'.world.disk ∧
      Alike (x.fills t.world.disk) t.world.disk s'.world.disk ∧ s'.world.logs = x.logs ∧
      rounds.map (·.name) = (catalog.close discovery.requested).packages ∧
      shortage? config.vendor.bootstrapSet (catalog.close discovery.requested) (.ofRounds rounds) =
        none ∧
      o.manifest = manifestOf config discovery (catalog.close discovery.requested)
        (.ofRounds rounds) time := by
  have htidy := hundisturbed.tidy
  have hready := hundisturbed.ready
  have hdirectory : x.directory = config.vendorDir root := hx ▸ rfl
  have hlogs : t.world.logs = x.logs := hx ▸ rfl
  have hmanifest := manifestNames_subset hx
  obtain ⟨rounds, u, hrounds, hnames, -, hresult⟩ := result_run fetcher hopening
  obtain ⟨d, hstore, rfl, rfl, hshortage⟩ := closing_eq_ok (hresult.symm.trans hrun)
  have hcovers (r : Round) (hr : r ∈ rounds) : x.Covers r.entry :=
    covers_of_mem hx hcatalog (hnames ▸ List.mem_map_of_mem hr) (hrounds.get?_eq hr)
  have hsorted : (rounds.map (·.name)).Pairwise (· < ·) :=
    hnames ▸ catalog.pairwise_lt_packages discovery.requested
  have hthere := isSome_file?_of_failedPackages
    (hrounds.settled (Catalog.normal_of_parse hcatalog)) hsorted hfailed
  rw [RoundsOf, ← hdirectory] at hrounds
  rw [recording, manifestPath, ← hdirectory] at hstore
  rw [← hdirectory] at hfiles
  -- the disk after the rounds, with the manifest, and after the last event
  obtain ⟨hclear, hulogs, hlogged, hcu, -⟩ :=
    hrounds.leaves hready.clear (hlogs ▸ hready.logged) hcovers hsorted
  rw [hlogs] at hulogs
  have hu : x.Ready u.world.disk := ⟨hclear, hulogs ▸ hlogged, hready.separate⟩
  obtain ⟨hd, hsamed, hcd, hfree⟩ := hu.storeManifest hmanifest hstore
  obtain ⟨hend, hcend⟩ := hd.reporting (w := u.world.on d) hulogs completeEvent
  obtain ⟨htidyu, halikeu⟩ := htidy.changes hu hcu (hrounds.steady hready.sound) (by
    rintro q (hq | ⟨r, hr, rfl | rfl⟩)
    · exact Site.writes_iff.mpr (.inl hq)
    · exact Site.writes_spot (hcovers r hr).name_mem
    · exact Site.writes_spot (hcovers r hr).partName_mem)
  obtain ⟨htidyd, haliked⟩ := htidyu.changes hd hcd hsamed (by
    rintro q (rfl | rfl)
    · exact Site.writes_spot (hmanifest (by simp [manifestNames]))
    · exact Site.writes_spot (hmanifest (by simp [manifestNames])))
  obtain ⟨htidyend, halikeend⟩ := htidyd.changes hend hcend
    (World.steady_reporting (u.world.on d) _ hd.sound)
    fun q hq => Site.writes_iff.mpr (.inl hq)
  have halike := haliked.trans halikeend
  have htemporary : manifestPart ∈ x.names := hmanifest (by simp [manifestNames])
  obtain ⟨-, d₁, hwrite, -⟩ := hu.storing_eq_ok hstore
  obtain ⟨p, hp, -⟩ := writeFile_eq_ok.mp hwrite
  obtain ⟨target, hres⟩ := exists_resolve_of_writePlace hp
  refine ⟨rounds, u.world.clock, ⟨htidyend, hmanifest, ?_, ?_,
    ⟨u.world.disk, _, d, hu, halike, hstore⟩, fun r hr => ⟨hrounds.get?_eq hr, hcovers r hr⟩,
    fun r hr => ?_⟩, halikeu.trans halike, hulogs, hnames, hshortage, rfl⟩
  · exact halike.keeps.hasDirectory halike.home
      (hu.clear.leads.hasDirectory (by decide) (followable_of_resolve hres))
  · exact (hcend.entry _ (hd.separate _ htemporary)).trans (hfree rfl)
  · obtain ⟨file, hfile⟩ := hthere r hr
    obtain ⟨-, _, _, hround⟩ := hrounds.forall_mem r hr
    exact ⟨file, hfile, hrounds.filename_eq hr hfile, sameHash_of_vendorOne hround hfile,
      hfiles file (List.mem_filterMap.mpr ⟨r, hr, hfile⟩)⟩

/-! ### Small workspaces -/

/-- Whether every package is there in the end, as it is recorded. -/
def isComplete (r : Outcome × Session (List String)) : Bool :=
  r.1.manifest.failedPackages.isEmpty &&
    r.1.manifest.files.all fun file => Holds r.2.world.disk "/w/vendor" file

/-- A fetcher that knows the files of all packages of the small catalog. -/
def fullShelf : Fetcher (List String) :=
  shelf [("f", ofText "F"), ("m", ofText "M"), ("p", ofText "P")]

set_option maxRecDepth 100000

theorem undisturbed_opened : Undisturbed "/w" {} found smallSite opened.world := by
  have hmade : (agentsIn "/w").result madeDisk = (.ok [⟨"root", "/w/agent"⟩], madeDisk) :=
    Prod.ext (by decide +kernel) rfl
  have hfound : ((scan "/w" ({} : Config).vendor.bootstrapSet).result
      opened.world).1.toOption.map (·.requested) = some found.requested := by decide +kernel
  obtain ⟨again, w', hscan, hrequested⟩ := exists_of_map_toOption hfound
  refine ⟨disk_opened ▸ ready_smallSite, ?_, ?_, again, w', hscan, hrequested⟩
  · rw [disk_opened]
    exact fun q hq => absurd hq List.not_mem_nil
  · rw [disk_opened]
    intro agents hagents agent hagent target p htarget hp
    cases hmade.symm.trans hagents
    obtain rfl := List.mem_singleton.mp hagent
    have hres : madeDisk.resolve true (join "/w/agent" Discovery.requirementFile) =
        .ok (.present (["w", "agent", "requirements.txt"].map ofText)
          (.file (ofText "Foo"))) := by rfl
    cases hres.symm.trans htarget
    obtain ⟨rfl, -⟩ := hp
    decide +kernel

/-! ### The theorem -/

/-- Let a pass with a catalog that was accepted succeed without failed packages, in a workspace in
which what is found does not come from what the pass writes. Let every file of the manifest be in
the vendor directory in the end, not empty and as it is recorded. Then a second pass succeeds, with
the same outcome whatever the fetcher is. It asks the fetcher for nothing, its manifest differs from
the first one at most in the time, and nothing is changed but the manifest and the event logs. -/
theorem second_pass_changes_nothing {contents : String}
    (hcatalog : Catalog.parse contents = .ok catalog) (fetcher : Fetcher S)
    {discovery : Discovery} {s' : Session S}
    (hopening : (opening root config catalog).result s = (.ok discovery, t)) {P : Place}
    {logPlaces : List Place} (hundisturbed : Undisturbed root config discovery
      (siteOf root config catalog discovery t.world P logPlaces) t.world)
    {o : Outcome} (hrun : (run fetcher root config catalog).result s = (.ok o, s'))
    (hfailed : o.manifest.failedPackages = [])
    (hfiles : ∀ file ∈ o.manifest.files, Holds s'.world.disk (config.vendorDir root) file)
    {S' : Type} (s₂ : Session S') (hdisk : s₂.world.disk = s'.world.disk)
    (hlogs : s₂.world.logs = s'.world.logs) :
    ∃ o₂ s₂', (∀ fetcher' : Fetcher S',
        (run fetcher' root config catalog).result s₂ = (.ok o₂, s₂')) ∧
      s₂'.state = s₂.state ∧
      (∃ time, o₂.manifest = { o.manifest with timestamp := time }) ∧
      ∀ q, q ∉ logPlaces → q ≠ P ++ [ofText fileName] →
        s₂'.world.disk.get? q = s₂.world.disk.get? q := by
  generalize hx : siteOf root config catalog discovery t.world P logPlaces = x at hundisturbed
  obtain ⟨rounds, time, hfinished, halike, hlogs', hnames, hshortage, hmanifest⟩ :=
    exists_finished hcatalog hopening hx hundisturbed hrun hfailed hfiles
  have hdirectory : x.directory = config.vendorDir root := hx ▸ rfl
  have hlogsx : t.world.logs = x.logs := hx ▸ rfl
  rw [← hdisk] at hfinished halike
  have hquiet := hfinished.tidy.quiet (hlogs.trans hlogs')
  obtain ⟨again, t₂, hopening₂, hrequested, ht₂, hstate⟩ :=
    hfinished.exists_opening hdirectory hundisturbed hlogsx halike hquiet
  rw [← hrequested] at hnames hshortage
  obtain ⟨o₂, s₂', hrun₂, hstate', ⟨time', hmanifest₂⟩, hkept⟩ :=
    hfinished.exists_run hdirectory hopening₂ ht₂ hnames hshortage
  refine ⟨o₂, s₂', hrun₂, hstate'.trans hstate, ⟨time'.seconds, ?_⟩, fun q hlog hmanifest => ?_⟩
  · rw [hmanifest₂, hmanifest, manifestOf, manifestOf, hrequested]
  · subst hx
    exact hkept q hlog hmanifest

theorem second_pass_small : ∃ o s' o₂ s₂',
    (run fullShelf "/w" {} small).result fresh = (.ok o, s') ∧
      o.manifest.failedPackages = [] ∧
      (∀ file ∈ o.manifest.files, Holds s'.world.disk "/w/vendor" file) ∧
      (∀ fetcher', (run fetcher' "/w" {} small).result s' = (.ok o₂, s₂')) ∧
      s₂'.state = s'.state ∧ (∃ time, o₂.manifest = { o.manifest with timestamp := time }) ∧
      ∀ q, q ≠ ["w", "vendor", "vendor_manifest.json"].map ofText →
        s₂'.world.disk.get? q = s'.world.disk.get? q := by
  have hlogs : opened.world.logs = [] := by decide +kernel
  have hfinish : (finish? fullShelf found ⟨["foo", "micropip", "packaging"], []⟩ opened).any
      isComplete = true := by decide +kernel
  obtain ⟨o, s', hrun, hcomplete⟩ := exists_run_of_finish? result_opening_fresh close_small hfinish
  obtain ⟨hfailed, hheld⟩ := Bool.and_eq_true_iff.mp hcomplete
  have hfailed' : o.manifest.failedPackages = [] := List.isEmpty_iff.mp hfailed
  have hheld' : ∀ file ∈ o.manifest.files, Holds s'.world.disk "/w/vendor" file := by
    simpa using hheld
  have hsite : siteOf "/w" {} small found opened.world (["w", "vendor"].map ofText) [] =
      smallSite := by
    rw [siteOf, close_small, hlogs, vendorDir_small]
    rfl
  obtain ⟨o₂, s₂', hrun₂, hstate, htime, hkept⟩ := second_pass_changes_nothing parse_smallCatalog
    fullShelf result_opening_fresh (hsite ▸ undisturbed_opened) hrun hfailed'
    (vendorDir_small ▸ hheld') s' rfl rfl
  exact ⟨o, s', o₂, s₂', hrun, hfailed', hheld', hrun₂, hstate, htime, fun q hq =>
    hkept q List.not_mem_nil hq⟩

/-! ### A requirement file in the vendor directory -/

/-- A workspace at `/w` whose only requirement file is a link to where a package will be. -/
def linked : Session (List String) :=
  workspace (.symlink (ofText "../vendor/m"))

/-- What is found in this workspace at first: the agent, which declares nothing. -/
def foundLinked : Discovery :=
  { found with requirements := [], requested := ["micropip", "packaging"] }

theorem close_bootstrap : small.close ["micropip", "packaging"] =
    { packages := ["micropip", "packaging"], missing := [] } := by
  have hreached : small.reached ["micropip", "packaging"] = ["micropip", "packaging"] := by
    simp [Catalog.reached, Closure.reach, Catalog.mentioned, small, Catalog.needs, Catalog.get?,
      Closure.without, Json.lookup?]
  rw [Catalog.close, hreached]
  decide +kernel

def openedLinked : Session (List String) :=
  openedFrom linked foundLinked.requested

theorem result_opening_linked :
    (opening "/w" {} small).result linked = (.ok foundLinked, openedLinked) :=
  result_opening_of_scan (Prod.ext (by decide +kernel) rfl) close_bootstrap
    (Prod.ext (by decide +kernel) rfl)

/-- A fetcher that has something for the bootstrap packages that no requirement file may hold. -/
def oddShelf : Fetcher (List String) :=
  shelf [("m", ofText "="), ("p", ofText "P")]

/-- Whether nothing can be found in the workspace any more. -/
def isLost (r : Outcome × Session (List String)) : Bool :=
  ((scan "/w" ["micropip", "packaging"]).result r.2.world).1.toOption.isNone

/-- A second pass may fail after one that left everything as it is recorded, although the vendor
directory is not in the directory of an agent: where a requirement file is a link into the vendor
directory, what was fetched is read as requirements. -/
theorem second_pass_refused : ∃ o s',
    (run oddShelf "/w" {} small).result linked = (.ok o, s') ∧
      o.discovery.agents.map (·.sourceDir) = ["/w/agent"] ∧
      ({} : Config).vendorDir "/w" = "/w/vendor" ∧
      o.manifest.failedPackages = [] ∧
      (∀ file ∈ o.manifest.files, Holds s'.world.disk "/w/vendor" file) ∧
      ∀ fetcher', ∃ f s'', (run fetcher' "/w" {} small).result s' = (.error f, s'') := by
  have hfinish : (finish? oddShelf foundLinked ⟨["micropip", "packaging"], []⟩ openedLinked).any
      (fun r => isComplete r && isLost r) = true := by decide +kernel
  obtain ⟨o, s', hrun, hcheck⟩ :=
    exists_run_of_finish? result_opening_linked close_bootstrap hfinish
  obtain ⟨hcomplete, hlost⟩ := Bool.and_eq_true_iff.mp hcheck
  obtain ⟨hfailed, hheld⟩ := Bool.and_eq_true_iff.mp hcomplete
  have hdiscovery : o.discovery = foundLinked := by
    obtain ⟨rounds, u, -, -, -, hresult⟩ := result_run oddShelf result_opening_linked
    obtain ⟨d, -, rfl, -⟩ := closing_eq_ok (hresult.symm.trans hrun)
    rfl
  refine ⟨o, s', hrun, by rw [hdiscovery]; rfl, by decide +kernel, List.isEmpty_iff.mp hfailed,
    by simpa using hheld, fun fetcher' => ?_⟩
  rcases hscan : (scan "/w" ["micropip", "packaging"]).result s'.world with ⟨f | again, w⟩
  · refine ⟨f, { s' with world := w }, ?_⟩
    have hfails : (Session.onWorld (S := List String) (scan "/w"
        ({} : Config).vendor.bootstrapSet)).result s' = (.error f, { s' with world := w }) := by
      rw [Session.onWorld, result_onPart]
      exact congrArg (fun r => (r.1, { s' with world := r.2 })) hscan
    exact result_bind_of_error hfails _
  · simp [isLost, hscan, Except.toOption] at hlost

end AgentChain.Vendor
