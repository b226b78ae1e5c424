import AgentChain.Proofs.Vendor.Again

/-!
# What vendoring may touch

A package is vendored from whatever is at its file name, and fetched only if that cannot be kept. If it
cannot be vendored, the file stays as it was. A pass changes nothing but files that are directly in the
vendor directory and the event logs, apart from directories on the way to it, which it makes. Nothing
at a name by way of which a file is written may be a link or a file that stands elsewhere too: what is
written through a link at that name goes astray.
-/

namespace AgentChain

open Bytes (ofText)
open AgentChain.Path (join)

/-! ### Directories on the way -/

theorem Path.eq_empty_of_parts (h : parts a = []) : a = "" := by
  obtain ⟨s, rest, hsegs⟩ := List.exists_cons_of_ne_nil (Text.split_ne_nil a)
  have htext : a = Text.join "/" (s :: rest) := hsegs ▸ (Text.join_split a).symm
  rw [parts, segments, hsegs] at h
  split at h
  · cases h
  next habs =>
  split at h
  · cases h
  next hhere =>
  have hs : s = "" := by
    have hnone : part? s = none := List.filterMap_eq_nil_iff.mp h s List.mem_cons_self
    rw [part?] at hnone
    split at hnone
    · next hs => simpa [show s ≠ "." by simpa using hhere] using hs
    · split at hnone <;> cases hnone
  subst hs
  cases rest with
  | nil => exact htext
  | cons t rest => exact absurd (by rw [htext, isAbsolute, toList_join_names]; rfl) habs

namespace Disk

variable {d d' : Disk} {routes : List Route} {path : Route} {q : Place}

/-- Outside of some places nothing comes but directories on the way that a path leads. -/
structure Paved (path : Route) (places : List Place) (d d' : Disk) : Prop where
  entry : ∀ q ∉ places, d'.get? q = d.get? q ∨
    d.get? q = none ∧ d'.get? q = some .directory ∧ ∃ a ∈ path.ancestors, d'.LeadsTo a.bytes q
  keeps : d.Keeps d'
  plain : ∀ q, d.Plain q → d'.Plain q
  home : d'.home = d.home

theorem Paved.frame (path : Route) (places : List Place) : Action.Frame (Paved path places) where
  refl d := ⟨fun _ _ => .inl rfl, ⟨fun _ h => h, fun _ _ h => h, fun _ h => h⟩, fun _ h => h, rfl⟩
  trans {d d' d''} h h' := by
    refine ⟨fun q hq => ?_, ⟨fun q hq => h'.keeps.directory q (h.keeps.directory q hq), fun q t hq =>
      h'.keeps.link q t (h.keeps.link q t hq), fun q hq => h.keeps.closed q (h'.keeps.closed q hq)⟩,
      fun q hq => h'.plain q (h.plain q hq), h'.home.trans h.home⟩
    rcases h.entry q hq with hsame | ⟨hfree, hdir, r, hr, hleads⟩
    · rw [← hsame]
      exact h'.entry q hq
    · exact .inr ⟨hfree, h'.keeps.directory q hdir, r, hr, hleads.mono h'.keeps h'.home⟩

theorem Sound.paved_createDirectories (hd : d.Sound) (path : Route) (places : List Place) :
    (d.createDirectories path).2.Sound ∧ d.Paved path places (d.createDirectories path).2 := by
  refine OnDisk.moves_createChain ((Paved.frame _ _).keeping Sound) path.ancestors
    (fun r hr d d' h hd => ⟨hd.createDirectory h, ?_⟩) d hd
  have hgrows := (Furnishing.createDirectory d r d' h hd).2.grows
  refine ⟨fun q _ => ?_, hgrows.keeps, fun q hq => ⟨fun t ht => hq.link t ((hgrows.link q t).mp ht),
    hgrows.alone q hq.alone⟩, hgrows.home⟩
  obtain ⟨p, hp, rfl, hres⟩ := hd.resolve_of_createDirectory h
  rw [get?_put hp.ne_nil]
  split
  · next hq =>
    rw [hq]
    exact .inr ⟨hp.free, rfl, r, hr, leadsTo_of_resolve hres⟩
  · exact .inl rfl

theorem HasDirectory.exists_leadsTo (h : d.HasDirectory a) : ∃ P, d.LeadsTo (ofText a) P := by
  rcases h with hempty | hdir
  · rw [Route.isEmpty, Bool.and_eq_true, List.isEmpty_iff, List.isEmpty_iff] at hempty
    obtain rfl := Path.eq_empty_of_parts hempty.2
    exact ⟨d.home, linkLimit, .nil _ _⟩
  · obtain ⟨P, hres⟩ := exists_resolve_of_isDirectory hdir
    exact ⟨P, leadsTo_of_resolve hres⟩

end Disk

namespace Vendor

open AgentChain.Action Disk
open AgentChain.Path (IsSegment)

variable {S : Type} {fetcher : Download.Fetcher S} {policy : Config.RetryPolicy} {catalog : Catalog}
  {base root : String} {config : Config} {entry : Catalog.Entry} {s s' t : Session S} {v : Vendored}
  {rounds : List Round} {x : Site} {d : Disk} {directory target : String} {V : Place}
  {logPlaces : List Place}

/-! ### One package -/

/-- What is at a path can be kept for a package: a file that can be read and is not empty, with the
published hash in any letter case, if there is one. -/
def Usable (d : Disk) (target : String) (entry : Catalog.Entry) : Prop :=
  ∃ contents, d.readBytes target = .ok contents ∧ contents ≠ [] ∧
    Download.Fits entry.sha256 contents

theorem fits_iff : Download.Fits entry.sha256 c ↔
    entry.sha256.all (Download.sameHash · (Sha256.hex c)) := by
  cases entry.sha256 <;> simp [Download.Fits, Download.sameHash_comm _ (Sha256.hex c),
    Download.sameHash_iff]

theorem isSome_reusable_iff : (reusable entry target d).isSome ↔ Usable d target entry := by
  constructor
  · intro h
    obtain ⟨file, hfile⟩ := Option.isSome_iff_exists.mp h
    obtain ⟨contents, hread, hne, hhash, -⟩ := reusable_eq_some hfile
    exact ⟨contents, hread, hne, fits_iff.mpr hhash⟩
  · rintro ⟨contents, hread, hne, hfits⟩
    rw [reusable_of_readBytes hread hne (fits_iff.mp hfits)]
    rfl

/-- A round asks the fetcher for something unless what is there can be kept. -/
theorem exists_stateAfter_of_vendorOne (hattempts : 0 < policy.maxAttempts)
    (h : (vendorOne fetcher policy base target entry).result s = (.ok v, t)) :
    (∃ n, t.state = Download.stateAfter fetcher (base ++ entry.fileName) n s.state ∧
      (n = 0 ↔ Usable s.world.disk target entry)) ∧
      ∀ f, v.failure? = some f → f.attempts ≠ [] := by
  rw [← isSome_reusable_iff]
  obtain ⟨file, hfile, rfl, rfl⟩ | ⟨f, state, hnone, hfetch, rfl, rfl⟩ |
      ⟨body, state, r, disk, hnone, hfetch, -, rfl, hr⟩ := vendorOne_cases h
  · exact ⟨⟨0, rfl, by simp [hfile]⟩, nofun⟩
  · obtain ⟨⟨n, hn, hstate⟩, hreasons⟩ := Download.exists_stateAfter_of_fetch hattempts hfetch
    refine ⟨⟨n, hstate, by simpa [hnone] using hn⟩, ?_⟩
    rintro _ ⟨⟩
    exact hreasons f rfl
  · obtain ⟨⟨n, hn, hstate⟩, -⟩ := Download.exists_stateAfter_of_fetch hattempts hfetch
    refine ⟨⟨n, hstate, by simpa [hnone] using hn⟩, ?_⟩
    obtain ⟨-, rfl⟩ | ⟨f, -, rfl⟩ := hr
    · nofun
    · rintro _ ⟨⟩
      simp

/-- One package is vendored from whatever is at its path. The fetcher is asked unless a file that can be
kept is there. If all goes well, the file of the record is there, with the published hash; otherwise
nothing has changed but the temporary file, and the failure names the package and a reason. -/
theorem vendorOne_from_any_state (hs : IsSegment entry.fileName)
    (htakes : Takes directory V (partName entry.fileName) entry.fileName s.world.disk)
    (hattempts : 0 < policy.maxAttempts) (fetcher : Download.Fetcher S) (base : String) :
    ∃ v t, (vendorOne fetcher policy base (join directory entry.fileName) entry).result s =
        (.ok v, t) ∧
      (∃ n, t.state = Download.stateAfter fetcher (base ++ entry.fileName) n s.state ∧
        (n = 0 ↔ Usable s.world.disk (join directory entry.fileName) entry)) ∧
      ((∃ file, v.file? = some file ∧ v.failure? = none ∧ file.filename = entry.fileName ∧
          Describes t.world.disk directory entry file) ∨
        ∃ f, v.file? = none ∧ v.failure? = some f ∧ f.package = entry.name ∧ f.attempts ≠ [] ∧
          Changes (· = V ++ [ofText (partName entry.fileName)]) s.world.disk t.world.disk) := by
  obtain ⟨v, t, hround⟩ :=
    exists_vendorOne fetcher policy base (join directory entry.fileName) entry s
  obtain ⟨hdescribes, hkept, -⟩ := htakes.vendorOne hs hround
  obtain ⟨hstate, hreasons⟩ := exists_stateAfter_of_vendorOne hattempts hround
  refine ⟨v, t, hround, hstate, ?_⟩
  obtain ⟨file, hfile, hnone, hname⟩ | ⟨f, hnone, hfailed, hpackage⟩ := file?_or_failure? hround
  · exact .inl ⟨file, hfile, hnone, hname, hdescribes file hfile⟩
  · exact .inr ⟨f, hnone, hfailed, hpackage, hreasons f hfailed, hkept hnone⟩

def packaging : Catalog.Entry :=
  ⟨"packaging", "p", [], none⟩

/-- The small workspace on a disk on which its vendor directory is made. -/
def freshOn (disk : Disk) : Session (List String) :=
  { fresh with world := { fresh.world with disk } }

set_option maxRecDepth 100000

/-- The small workspace with a link at a name in its vendor directory. -/
def linkedAt (name target : String) : Disk :=
  { madeDisk with entries := madeDisk.entries ++ [(smallSite.spot name, .symlink (ofText target))] }

/-- A link under the name of a package is replaced. -/
theorem vendorOne_from_small : ∃ v t,
    (vendorOne bootstrapShelf ⟨1, 0⟩ "" "/w/vendor/p" packaging).result (freshOn (linkedAt "p" "x")) =
      (.ok v, t) ∧ ∃ file, v.file? = some file ∧
        Describes t.world.disk "/w/vendor" packaging file := by
  have hsound : (linkedAt "p" "x").Sound := sound_of_fits (by decide +kernel)
  have htakes : Takes "/w/vendor" smallSite.place "p.part" "p" (linkedAt "p" "x") :=
    ⟨hsound, ⟨(linkedAt "p" "x").apart (· = smallSite.spot "p"), keeps_apart _, rfl,
      walkLinks_eq_present_directory_iff.mp (by rfl), by simp [get?_apart, Site.spot]⟩,
      hsound.plain_of_free (by decide +kernel)⟩
  obtain ⟨v, t, hround, -, ⟨file, hfile, -, -, hdescribes⟩ | ⟨f, hnone, -⟩⟩ :=
    vendorOne_from_any_state (s := freshOn (linkedAt "p" "x"))
      (show IsSegment packaging.fileName from ⟨by decide, by decide⟩) htakes
      (show 0 < (⟨1, 0⟩ : Config.RetryPolicy).maxAttempts by decide) bootstrapShelf ""
  · exact ⟨v, t, hround, file, hfile, hdescribes⟩
  · have hvendored : ((vendorOne bootstrapShelf ⟨1, 0⟩ "" "/w/vendor/p" packaging).result
        (freshOn (linkedAt "p" "x"))).1.toOption.any (·.file?.isSome) = true := by decide +kernel
    rw [show "/w/vendor/p" = join "/w/vendor" packaging.fileName by decide, hround] at hvendored
    simp [Except.toOption, hnone] at hvendored

/-- What is written through a link under the temporary name is not at the path in the end. -/
theorem vendorOne_through_link :
    let r := (vendorOne bootstrapShelf ⟨1, 0⟩ "" "/w/vendor/p" packaging).result
      (freshOn (linkedAt "p.part" "p"))
    r.1.toOption.any (·.failure?.isNone) = true ∧
      (r.2.world.disk.readBytes "/w/vendor/p").toOption = none := by
  decide +kernel

/-! ### A whole pass -/

theorem Logged.reported {w w' : World} (h : Logged w.logs logPlaces w.disk) (hd : w.disk.Sound)
    (hw : World.Reported w w') : w'.logs = w.logs ∧ SameDirectories w.disk w'.disk ∧
      Logged w.logs logPlaces w'.disk ∧ Changes (· ∈ logPlaces) w.disk w'.disk := by
  obtain ⟨events, rfl⟩ := hw
  induction events generalizing w with
  | nil => exact ⟨rfl, Steady.frame.refl _ hd, h, .refl _ _⟩
  | cons e events ih =>
    obtain ⟨h₁, hc₁⟩ := h.reporting hd e
    have hsame₁ := World.steady_reporting w e hd
    obtain ⟨hlogs, hsame₂, h₂, hc₂⟩ := ih h₁ hsame₁.sound
    exact ⟨hlogs, Steady.frame.trans (fun _ => hsame₁) (fun _ => hsame₂) hd, h₂, hc₁.trans hc₂⟩

/-- The disk on which the rounds of a pass begin. The vendor directory is made, with the directories
above it. -/
def openedDisk (root : String) (config : Config) (catalog : Catalog) (s : Session S) : Disk :=
  ((opening root config catalog).result s).2.world.disk

/-- Since a session, nothing happened but reports of events and directories that were made. -/
structure Begun (path : Route) (logPlaces : List Place) (s t : Session S) : Prop where
  logs : t.world.logs = s.world.logs
  sound : t.world.disk.Sound
  logged : Logged t.world.logs logPlaces t.world.disk
  paved : s.world.disk.Paved path logPlaces t.world.disk

namespace Begun

variable {path : Route} {u : Session S}

theorem refl (hd : s.world.disk.Sound) (hlogged : Logged s.world.logs logPlaces s.world.disk) :
    Begun path logPlaces s s :=
  ⟨rfl, hd, hlogged, (Paved.frame _ _).refl _⟩

theorem reported (h : Begun path logPlaces s t) (hu : World.Reported t.world u.world) :
    Begun path logPlaces s u := by
  obtain ⟨hlogs, hsame, hlogged, hc⟩ := h.logged.reported h.sound hu
  exact ⟨hlogs.trans h.logs, hsame.sound, hlogs ▸ hlogged, (Paved.frame _ _).trans h.paved
    ⟨fun q hq => .inl (hc.entry q hq), hsame.keeps hc h.logged.plain,
      fun q hq => hq.of_changes hc (hlogged.plain q), hc.home⟩⟩

theorem ensures {x : Action World α} (hx : Moves World.Reported x) :
    Ensures (Begun path logPlaces s) (Session.onWorld x) (fun _ => Begun path logPlaces s)
      (Begun path logPlaces s) := fun _ ht =>
  ⟨fun _ _ h => ht.reported (hx.of_result (Session.of_result_onWorld h).1),
    fun _ _ h => ht.reported (hx.of_result (Session.of_result_onWorld h).1)⟩

theorem createDirectories (h : Begun path logPlaces s t) (hlogs : u.world.logs = t.world.logs)
    (hdisk : u.world.disk = (t.world.disk.createDirectories path).2) :
    Begun path logPlaces s u := by
  obtain ⟨hsound, hpaved⟩ := h.sound.paved_createDirectories path logPlaces
  rw [← hdisk] at hsound hpaved
  exact ⟨hlogs.trans h.logs, hsound, hlogs ▸ h.logged.mono hpaved.keeps hpaved.home fun q hq =>
    hpaved.plain q (h.logged.plain q hq), (Paved.frame _ _).trans h.paved hpaved⟩

end Begun

/-- A pass begins with nothing but events and directories that are made. -/
theorem ensures_opening (root : String) (config : Config) (catalog : Catalog) :
    Ensures (Begun (config.vendorDir root) logPlaces s) (opening root config catalog)
      (fun _ t => Begun (config.vendorDir root) logPlaces s t ∧
        t.world.disk.HasDirectory (config.vendorDir root))
      (Begun (config.vendorDir root) logPlaces s) := by
  refine .bind (Begun.ensures (Discovery.reported_scan _ _)) fun discovery =>
    .bind (Begun.ensures fun w => ?_) fun _ => .bind (fun t ht => ?_) fun _ => .pure fun _ h => h
  · rw [result_resolve]
    exact ⟨_, rfl⟩
  have hbegun {r : Except Failure Unit} {u : Session S} (h : (Session.onWorld (World.onDisk
      (OnDisk.createDirectoriesFor .createVendorDir (config.vendorDir root)))).result t = (r, u)) :
      Begun (config.vendorDir root) logPlaces s u := by
    rw [Session.onWorld, result_onPart, World.onDisk, result_onPart, OnDisk.createDirectoriesFor,
      result_within, OnDisk.result_makeDirectories] at h
    cases h
    exact ht.createDirectories rfl rfl
  refine ⟨fun _ u h => ⟨hbegun h, ?_⟩, fun _ _ h => hbegun h⟩
  have hmade := (Session.of_result_onWorld h).1
  rw [World.onDisk, result_onPart] at hmade
  obtain ⟨hok, hworld⟩ := Prod.mk.inj hmade
  exact OnDisk.hasDirectory_of_createDirectoriesFor ht.sound
    (Prod.ext hok (congrArg World.disk hworld))

theorem paved_openedDisk (root : String) (config : Config) (catalog : Catalog)
    (hd : s.world.disk.Sound) (hlogged : Logged s.world.logs logPlaces s.world.disk) :
    s.world.disk.Paved (config.vendorDir root) logPlaces (openedDisk root config catalog s) := by
  have hopens := ensures_iff.1 (ensures_opening root config catalog) s (.refl hd hlogged)
  rw [openedDisk]
  rcases hopening : (opening root config catalog).result s with ⟨f | discovery, t⟩ <;>
    rw [hopening] at hopens
  · exact hopens.paved
  · exact hopens.1.paved

theorem exists_storing_of_closing {discovery : Discovery} {closure : Closure} {progress : Progress}
    {r : Except Failure Outcome}
    (h : (closing root config discovery closure progress).result s = (r, t)) :
    ∃ r' d, (recording root config discovery closure progress s.world).result s.world.disk =
      (r', d) ∧ World.Reported (s.world.on d) t.world := by
  rcases hstore : (recording root config discovery closure progress s.world).result s.world.disk
    with ⟨f | ⟨⟩, d⟩
  · rw [result_closing, hstore] at h
    cases h
    exact ⟨_, d, rfl, World.Reported.frame.refl _⟩
  · obtain ⟨-, hresult⟩ | ⟨f, -, hresult⟩ := closing_cases hstore
    · cases h.symm.trans hresult
      exact ⟨_, d, rfl, [completeEvent], rfl⟩
    · cases h.symm.trans hresult
      exact ⟨_, d, rfl, [shortageEvent f], rfl⟩

/-- After its opening a pass changes nothing but event logs and what is directly in the vendor directory.
-/
theorem changes_of_opening {contents : String} (hcatalog : Catalog.parse contents = .ok catalog)
    {discovery : Discovery} (hopening : (opening root config catalog).result s = (.ok discovery, t))
    (hd : t.world.disk.Sound) (hlogged : Logged t.world.logs logPlaces t.world.disk)
    (hV : t.world.disk.LeadsTo (ofText (config.vendorDir root)) V)
    (hplain : ∀ n, t.world.disk.Plain (V ++ [n])) {r : Except Failure Outcome}
    (hrun : (run fetcher root config catalog).result s = (r, s')) :
    SameDirectories t.world.disk s'.world.disk ∧
      Changes (fun q => q ∈ logPlaces ∨ ∃ n, q = V ++ [n]) t.world.disk s'.world.disk := by
  generalize hx : siteOf root config catalog discovery t.world V logPlaces = x
  have hdirectory : x.directory = config.vendorDir root := hx ▸ rfl
  have hlogPlaces : x.logPlaces = logPlaces := hx ▸ rfl
  have hspot (name : String) : x.spot name = V ++ [ofText name] := hx ▸ rfl
  have hclear : x.Clear t.world.disk :=
    ⟨hd, by subst hx; exact hV, fun name _ => hspot name ▸ hplain _⟩
  obtain ⟨rounds, u, hrounds, hnames, -, hresult⟩ := result_run fetcher hopening
  have hsteady := hrounds.steady hd
  rw [RoundsOf, ← hdirectory] at hrounds
  rw [← hlogPlaces] at hlogged ⊢
  obtain ⟨hu, -, hulogged, hcu, -⟩ := hrounds.leaves hclear hlogged
    (fun r hr => covers_of_mem hx hcatalog (hnames ▸ List.mem_map_of_mem hr) (hrounds.get?_eq hr))
    (hnames ▸ catalog.pairwise_lt_packages discovery.requested)
  obtain ⟨r', d, hstore, hreported⟩ := exists_storing_of_closing (hresult.symm.trans hrun)
  rw [recording, manifestPath, ← hdirectory] at hstore
  obtain ⟨hclear', hsame, hc, hplain, -⟩ := hu.storeManifest (manifestNames_subset hx) hstore
  obtain ⟨-, hsame', -, hc'⟩ := Logged.reported (w := u.world.on d)
    (hulogged.of_changes hsame hc hplain) hclear'.sound hreported
  have hpair {temporary name : String} {q : Place} (hq : x.Pair temporary name q) :
      ∃ n, q = V ++ [n] := by
    rcases hq with rfl | rfl
    · exact ⟨_, hspot _⟩
    · exact ⟨_, hspot _⟩
  refine ⟨Steady.frame.trans (fun _ => hsteady) (Steady.frame.trans (fun _ => hsame) fun _ => hsame') hd,
    (hcu.mono fun q hq => hq.imp_right ?_).trans
      ((hc.mono fun q hq => .inr (hpair hq)).trans (hc'.mono fun q hq => .inl hq))⟩
  rintro ⟨r, -, hq⟩
  exact hpair hq

/-- Let nothing in the vendor directory be a link or a file that stands elsewhere too, and let this also
hold of the places of the event logs. Whatever the file names of the catalog are and however the pass
ends, each other place is as it was, or it is a directory on the way to the vendor directory that was
made, or it is directly in the vendor directory and no directory before and after. -/
theorem run_spares_elsewhere {contents : String} (hcatalog : Catalog.parse contents = .ok catalog)
    (hd : s.world.disk.Sound) (hlogged : Logged s.world.logs logPlaces s.world.disk)
    (hplain : ∀ V, (openedDisk root config catalog s).LeadsTo (ofText (config.vendorDir root)) V →
      ∀ n, s.world.disk.Plain (V ++ [n]))
    (fetcher : Download.Fetcher S) {r : Except Failure Outcome}
    (hrun : (run fetcher root config catalog).result s = (r, s')) (q : Place) (hq : q ∉ logPlaces) :
    s'.world.disk.get? q = s.world.disk.get? q ∨
    (s.world.disk.get? q = none ∧ s'.world.disk.get? q = some .directory ∧
      ∃ a ∈ (config.vendorDir root : Route).ancestors,
        (openedDisk root config catalog s).LeadsTo a.bytes q) ∨
    (∃ V n, (openedDisk root config catalog s).LeadsTo (ofText (config.vendorDir root)) V ∧
        q = V ++ [n]) ∧
      s.world.disk.get? q ≠ some .directory ∧ s'.world.disk.get? q ≠ some .directory := by
  have hopens := ensures_iff.1 (ensures_opening root config catalog) s (.refl hd hlogged)
  have hpaved := paved_openedDisk root config catalog hd hlogged
  have hcame := hpaved.entry q hq
  rw [openedDisk] at hplain hpaved hcame ⊢
  rcases hopening : (opening root config catalog).result s with ⟨f | discovery, t⟩ <;>
    rw [hopening] at hopens hplain hpaved hcame
  · cases hrun.symm.trans (result_run_of_opening_error fetcher hopening)
    exact hcame.imp_right .inl
  obtain ⟨hbegun, hmade⟩ := hopens
  obtain ⟨V, hV⟩ := hmade.exists_leadsTo
  obtain ⟨hsame, hc⟩ := changes_of_opening hcatalog hopening hbegun.sound hbegun.logged hV
    (fun n => hpaved.plain _ (hplain V hV n)) hrun
  by_cases hkept : s'.world.disk.get? q = t.world.disk.get? q
  · rw [hkept]
    exact hcame.imp_right .inl
  · have hdir : t.world.disk.get? q ≠ some .directory := fun h =>
      hkept (((hsame.directory q).mpr h).trans h.symm)
    obtain ⟨n, rfl⟩ : ∃ n, q = V ++ [n] := by
      by_contra hnot
      exact hkept (hc.entry q fun h => h.elim hq hnot)
    exact .inr (.inr ⟨⟨V, n, hV, rfl⟩, fun h => hdir (hpaved.keeps.directory _ h), fun h =>
      hdir ((hsame.directory _).mp h)⟩)

/-- The small workspace with a vendor directory, and with an event log. -/
def logging : Session (List String) :=
  { fresh with world := { fresh.world with disk := madeDisk, logs := ["/w/log"] } }

theorem run_spares_small :
    ((run bootstrapShelf "/w" {} small).result logging).2.world.disk.get?
      [ofText "w", ofText "agent", ofText "requirements.txt"] = some (.file (ofText "Foo")) := by
  have hsound : madeDisk.Sound := ready_smallSite.sound
  have hlogged : Logged ["/w/log"] [[ofText "w", ofText "log"]] madeDisk := by
    refine ⟨fun path hpath => ⟨[ofText "w"], ofText "log", by simp, ?_⟩, ?_⟩
    · rw [List.mem_singleton.mp hpath, show "/w/log" = join "/w" "log" by decide]
      exact aims_join (by decide) (walkLinks_eq_present_directory_iff.mp (by rfl))
    · simpa using hsound.plain_of_free (by decide +kernel)
  -- the vendor directory was there before
  have hpaved := paved_openedDisk (s := logging) "/w" {} small hsound hlogged
  have hleads : (openedDisk "/w" {} small logging).LeadsTo (ofText "/w/vendor")
      [ofText "w", ofText "vendor"] := ready_smallSite.leads.mono hpaved.keeps hpaved.home
  have hplain : ∀ V, (openedDisk "/w" {} small logging).LeadsTo
      (ofText (({} : Config).vendorDir "/w")) V → ∀ n, madeDisk.Plain (V ++ [n]) := by
    intro V hV n
    rw [vendorDir_small] at hV
    rw [hV.unique hleads]
    exact hsound.plain_of_free (by rfl)
  rcases hrun : (run bootstrapShelf "/w" {} small).result logging with ⟨r, s'⟩
  obtain hsame | ⟨hfree, -⟩ | ⟨⟨V, n, hV, hq⟩, -⟩ := run_spares_elsewhere parse_smallCatalog hsound
    hlogged hplain bootstrapShelf hrun [ofText "w", ofText "agent", ofText "requirements.txt"]
    (by decide +kernel)
  · rw [hsame]
    decide +kernel
  · exact absurd hfree (by decide +kernel)
  · rw [hV.unique hleads] at hq
    exact absurd (List.cons.inj (List.cons.inj hq).2).1 (by decide +kernel)

/-- The small workspace with a file that is also under the temporary name of a package. -/
def twinned : Disk where
  entries := madeDisk.entries ++ [([ofText "w", ofText "x"], .file [1]),
    (smallSite.spot "p.part", .file [1])]
  home := []
  twins := [[[ofText "w", ofText "x"], smallSite.spot "p.part"]]

/-- A pass writes a file outside of the vendor directory if it is also under a name in use there. -/
theorem run_through_twin : ∃ o s', (run fullShelf "/w" {} small).result (freshOn twinned) = (.ok o, s') ∧
    twinned.get? [ofText "w", ofText "x"] = some (.file [1]) ∧
      s'.world.disk.get? [ofText "w", ofText "x"] = some (.file (ofText "P")) := by
  have hopening : (opening "/w" {} small).result (freshOn twinned) =
      (.ok found, openedFrom (freshOn twinned) found.requested) :=
    result_opening_of_scan (Prod.ext (by decide +kernel) rfl) close_small
      (Prod.ext (by decide +kernel) rfl)
  have hfinish : (finish? fullShelf found ⟨["foo", "micropip", "packaging"], []⟩
      (openedFrom (freshOn twinned) found.requested)).any
      (fun r => r.2.world.disk.get? [ofText "w", ofText "x"] = some (.file (ofText "P"))) = true := by
    decide +kernel
  obtain ⟨o, s', hrun, hfile⟩ := exists_run_of_finish? hopening close_small hfinish
  exact ⟨o, s', hrun, by decide +kernel, of_decide_eq_true hfile⟩

end Vendor

end AgentChain
