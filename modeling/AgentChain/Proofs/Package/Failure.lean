import AgentChain.Proofs.Discovery
import AgentChain.Proofs.Package.Passes

/-!
# Passes of packaging that fail

A pass of packaging that fails leaves no pair of artifacts that do not belong together. Either the
four files are as they were, or verification of the artifacts fails. This holds wherever the pass
fails, and whatever the directory of the artifacts held before, as long as the pass writes into that
directory when it means to.
-/

namespace AgentChain

open AgentChain.Action Disk
open Bytes (ofText)
open AgentChain.Path (IsName join)

/-! ### Reading -/

open World in
theorem Package.reported_inputs (root : String) (config : Config) :
    Moves Reported (inputs root config) := by
  have hR := Reported.frame
  refine hR.bind (Discovery.reported_scan _ _) fun discovery => hR.bind ?_ fun vendor => hR.pure _
  exact reported_onDisk (Frame.within (Storage.closed_readDocument (OnDisk.closed_still frame_eq) _ _) _)

namespace Package

variable {α : Type} {dist : String} {P : Place} {d d' : Disk} {w w' : World}

/-- Before the staging directory is made, nothing changes but the log. -/
def Early (dist : String) (P : Place) (d d' : Disk) : Prop :=
  d.Sound → Settled d dist P → d'.Sound ∧ d.Grows d' ∧ Changes (Spots P [Config.buildEvents]) d d'

theorem Early.frame (dist : String) (P : Place) : Frame (Early dist P) where
  refl _ hsound _ := ⟨hsound, .refl _, .refl _ _⟩
  trans h h' hsound hsettled :=
    have ⟨hsound', hgrows, hc⟩ := h hsound hsettled
    have ⟨hsound'', hgrows', hc'⟩ := h' hsound' (hsettled.grows hgrows)
    ⟨hsound'', hgrows.trans hgrows', hc.trans hc'⟩

theorem exists_resolve_of_writePlace (h : d.writePlace r = .ok p) :
    ∃ t, d.resolve true r = .ok t := by
  cases hres : d.resolve true r with
  | ok t => exact ⟨t, rfl⟩
  | error f => simp [writePlace, hres] at h

theorem early_append
    (hd : d.append (join dist Config.buildEvents) line = .ok d') : Early dist P d d' := by
  intro hsound hsettled
  have hused : Config.buildEvents ∈ used := by decide
  have hproper := proper_of_mem_used _ hused
  obtain ⟨p, c, hp, rfl⟩ := append_eq_ok hd
  obtain ⟨t, ht⟩ := exists_resolve_of_writePlace hp
  have hbytes : (join dist Config.buildEvents : Route).bytes =
      Name.below (ofText dist) (ofText Config.buildEvents) :=
    (isName_of_mem_used _ hused).ofText_join
  obtain ⟨left, Q, hQ, -⟩ := exists_leadsTo hbytes hproper.ne_nil hproper.no_slash ht
  obtain ⟨hready, hc⟩ := step_append hd (hsettled.ready hsound hQ)
  exact ⟨hready.sound, hsound.grows_fill (hsound.of_writePlace hp), hc⟩

/-- Before the staging directory is made, nothing changes but the log and the list of events. -/
def EarlyWorld (dist : String) (P : Place) (w w' : World) : Prop :=
  Logged dist w → Logged dist w' ∧ Early dist P w.disk w'.disk

theorem EarlyWorld.frame (dist : String) (P : Place) : Frame (EarlyWorld dist P) where
  refl _ h := ⟨h, (Early.frame dist P).refl _⟩
  trans h h' hlogged :=
    have ⟨hlogged', hearly⟩ := h hlogged
    have ⟨hlogged'', hearly'⟩ := h' hlogged'
    ⟨hlogged'', (Early.frame dist P).trans hearly hearly'⟩

theorem early_reporting (w : World) (e : Event) : EarlyWorld dist P w (w.reporting e) :=
  fun hlogged => ⟨hlogged, World.moves_reporting (Early.frame _ _) w e fun path hpath _ _ hd => by
    rw [hlogged path hpath] at hd
    exact early_append hd⟩

theorem early_inputs (root : String) (config : Config) :
    Moves (EarlyWorld dist P) (inputs root config) :=
  fun w => (reported_inputs root config w).moves (EarlyWorld.frame dist P) early_reporting

/-! ### Files that were there -/

/-- A sound disk stays sound, and every file on it was there. -/
def Thinning (d d' : Disk) : Prop :=
  d.Sound → d'.Sound ∧ ∀ q c, d'.get? q = some (.file c) → d.get? q = some (.file c)

theorem Thinning.frame : Frame Thinning where
  refl _ h := ⟨h, fun _ _ hq => hq⟩
  trans h h' hd :=
    have ⟨hd', hfile⟩ := h hd
    have ⟨hd'', hfile'⟩ := h' hd'
    ⟨hd'', fun q c hq => hfile q c (hfile' q c hq)⟩

theorem thinning_removeTree (path : Route) :
    Moves Thinning (OnDisk.change (·.removeTree path)) := by
  refine OnDisk.moves_change Thinning.frame fun d d' h hd => ⟨hd.removeTree h, fun q c hq => ?_⟩
  obtain ⟨p, -, rfl⟩ | ⟨p, t, -, rfl⟩ := removeTree_eq_ok h <;> exact (of_get?_without hq).1

theorem thinning_resetDirectory (path : String) : Moves Thinning (resetDirectory path) := by
  have hR := Thinning.frame
  have hmake : Moves Thinning (OnDisk.createDirectories path) := by
    refine OnDisk.moves_createDirectories hR (fun d r d' h hd => ?_) _
    obtain ⟨hd', hfurn⟩ := Furnishing.createDirectory d r d' h hd
    refine ⟨hd', fun q c hq => ?_⟩
    rcases hfurn.entry q with hsame | ⟨-, hdir⟩
    · rwa [hsame] at hq
    · rw [hdir] at hq
      cases hq
  refine hR.bind (fun d => hR.refl d) fun there => ?_
  split
  · exact hR.bind (Frame.within (thinning_removeTree path) _) fun _ => hmake
  · exact hmake

/-! ### A pass that fails -/

/-- The artifacts are as they were: the same stands at their names, and every file on the disk is one
that was there, or the log. -/
structure AsBefore (P : Place) (d d' : Disk) : Prop where
  artifact : ∀ name ∈ artifacts, d'.get? (spot P name) = d.get? (spot P name)
  file : ∀ q c, d'.get? q = some (.file c) → d.get? q = some (.file c) ∨
    q = spot P Config.buildEvents

theorem asBefore_of_changes (h : Changes (Spots P [Config.buildEvents]) d d') : AsBefore P d d' where
  artifact name hname := h.entry _ fun hspot => by
    rw [spots_iff, List.mem_singleton] at hspot
    subst hspot
    exact absurd hname (by decide)
  file q c hq := by
    by_cases hspot : Spots P [Config.buildEvents] q
    · obtain ⟨name, hname, rfl⟩ := hspot
      exact .inr (by rw [List.mem_singleton.1 hname])
    · exact .inl ((h.entry q hspot).symm.trans hq)

/-- The staging directory is none of the artifacts. -/
theorem AsBefore.stage (h : AsBefore P d d') (hc : Changes (stage P <+: ·) d' d'')
    (hfile : ∀ q c, d''.get? q = some (.file c) → d'.get? q = some (.file c)) : AsBefore P d d'' where
  artifact name hname := by
    rw [hc.entry _ (not_below_stage_spot fun heq => ?_), h.artifact name hname]
    subst heq
    exact absurd hname (by decide)
  file q c hq := h.file q c (hfile q c hq)

/-- The disk without the staging directory. -/
def unstaged (dist : String) (d : Disk) : Disk :=
  ((OnDisk.change (·.removeTree (join dist stagingDir))).result d).2

theorem unstaged_of_ready (h : Ready dist P d) :
    Ready dist P (unstaged dist d) ∧ Changes (stage P <+: ·) d (unstaged dist d) ∧
      ∀ q c, (unstaged dist d).get? q = some (.file c) → d.get? q = some (.file c) := by
  have hthin := thinning_removeTree (join dist stagingDir) d h.sound
  rw [unstaged]
  cases hremove : d.removeTree (join dist stagingDir) with
  | ok d' =>
    rw [OnDisk.result_change_of_ok hremove] at hthin ⊢
    obtain ⟨h', hc, -⟩ := removeTree_of_ready h hremove
    exact ⟨h', hc, hthin.2⟩
  | error f =>
    rw [OnDisk.result_change_of_error hremove]
    exact ⟨h, .refl _ d, fun _ _ hq => hq⟩

/-- The artifacts are made in the staging directory, which is removed in the end. -/
abbrev staging [Gzip.Encoder] (root : String) (config : Config) (discovery : Discovery) (vendor : VendorManifest)
    (dist : String) : Action World Outcome := do
  let result ← (runIn root config discovery vendor dist (join dist stagingDir)).attempt
  let _ ← World.onDisk (OnDisk.change (·.removeTree (join dist stagingDir))).attempt
  .ofExcept result

theorem result_staging [Gzip.Encoder]
    (h : (runIn root config discovery vendor dist (join dist stagingDir)).result w = (r, w₁)) :
    (staging root config discovery vendor dist).result w = (r, w₁.on (unstaged dist w₁.disk)) := by
  rw [staging, result_bind, result_attempt, h]
  simp only
  rw [result_bind, World.onDisk, result_onPart, result_attempt]
  exact result_ofExcept _ _

theorem rejected_of_mid_code (h : Ready dist P d)
    (hbare : d.get? (spot P Artifact.codeManifest) = none ∨
      d.get? (spot P Artifact.codeManifest) = some .directory) : Rejected dist d := by
  refine rejected_of_no_code fun Q hQ => ?_
  rwa [hQ.unique h.leadsTo]

/-- Making artifacts in a staging directory fails without a change to them, or what is left is
rejected. -/
theorem rejected_or_changes_stage [Gzip.Encoder] (hstaged : Staged dist P w.disk)
    (hlogged : Logged dist w) (hagents : ∀ agent ∈ discovery.agents, IsName agent.name)
    (hfiles : ∀ p ∈ vendor.packageFiles, IsName p.2)
    (h : (staging root config discovery vendor dist).result w = (.error f, w')) :
    Rejected dist w'.disk ∨ (Ready dist P w'.disk ∧ Changes (stage P <+: ·) w.disk w'.disk ∧
      ∀ q c, w'.disk.get? q = some (.file c) → w.disk.get? q = some (.file c)) := by
  have hstart : Logged dist w ∧ w.disk = w.disk ∧ Mid dist P [] w.disk :=
    ⟨hlogged, rfl, hstaged, by simp⟩
  obtain ⟨-, herror⟩ := ensures_runIn root config discovery vendor hagents hfiles w hstart
  rcases hrun : (runIn root config discovery vendor dist (join dist stagingDir)).result w with ⟨r, w₃⟩
  rw [result_staging hrun] at h
  cases h
  obtain ⟨-, hbroken⟩ := herror f w₃ hrun
  have hready₃ : Ready dist P w₃.disk := by
    rcases hbroken with ⟨-, hstaged₃⟩ | hmid | hmid
    · exact hstaged₃.ready
    · exact hmid.1.ready
    · exact hmid.1.ready
  obtain ⟨hready, hc, hthin⟩ := unstaged_of_ready hready₃
  have hfree : ∀ name ∈ artifacts,
      (unstaged dist w₃.disk).get? (spot P name) = w₃.disk.get? (spot P name) := by
    intro name hname
    refine hc.entry _ (not_below_stage_spot fun heq => ?_)
    subst heq
    exact absurd hname (by decide)
  rcases hbroken with ⟨hsame, -⟩ | hmid | hmid
  · rw [hsame] at hc hthin hready ⊢
    exact .inr ⟨hready, hc, hthin⟩
  · refine .inl (rejected_of_mid_code hready (.inl ?_))
    exact (hfree _ kind_code.manifest_mem).trans (hmid.2 _ (by simp))
  · refine .inl (rejected_of_no_deps hready ?_)
    exact (hfree _ kind_deps.manifest_mem).trans (hmid.2 _ (by simp))

/-- The package files that the vendor manifest of a workspace lists are named by single names. -/
def FilesNamed (root : String) (config : Config) (w : World) : Prop :=
  ∀ discovery vendor w', (inputs root config).result w = (.ok (discovery, vendor), w') →
    ∀ p ∈ vendor.packageFiles, IsName p.2

/-- A pass of packaging that fails never leaves artifacts that do not belong together. Either the
artifacts are as they were, or verification rejects what is left.

The path of the artifacts may lead to a directory that is there, or to one that is still to be made;
it may not lead through anything that packaging writes, and the files that are written on the way may
not be links or stand elsewhere too. -/
theorem asBefore_or_rejected_of_failure [Gzip.Encoder] (root : String) (config : Config)
    (w w' : World) (f : Failure) (P : Place) (hd : w.disk.Sound)
    (hlogged : Logged (config.distDir root) w) (hsettled : Settled w.disk (config.distDir root) P)
    (hplace : w.disk.LeadsTo (ofText (config.distDir root)) P ∨ w.disk.get? P = none)
    (hfiles : FilesNamed root config w) (h : (run root config).result w = (.error f, w')) :
    AsBefore P w.disk w'.disk ∨ Rejected (config.distDir root) w'.disk := by
  generalize hdist : config.distDir root = dist at *
  have hearly : EarlyWorld dist P w _ := early_inputs root config w
  rw [run, result_bind] at h
  rcases hin : (inputs root config).result w with ⟨f₁ | ⟨discovery, vendor⟩, w₁⟩
  · rw [hin] at h hearly
    cases h
    exact .inl (asBefore_of_changes ((hearly hlogged).2 hd hsettled).2.2)
  rw [hin] at h hearly
  obtain ⟨hlogged₁, hearly₁⟩ := hearly hlogged
  obtain ⟨hd₁, hgrows₁, hc₁⟩ := hearly₁ hd hsettled
  have hsettled₁ := hsettled.grows hgrows₁
  have hbefore₁ := asBefore_of_changes hc₁
  have hagents : ∀ agent ∈ discovery.agents, IsName agent.name := by
    obtain ⟨discovery', w₂, hscan, hrest⟩ := result_bind_eq_ok.1 hin
    obtain ⟨vendor', w₃, -, hrest⟩ := result_bind_eq_ok.1 hrest
    cases hrest
    exact Discovery.isName_of_scan hscan
  simp only [hdist] at h
  rw [result_bind, World.onDisk, result_onPart] at h
  have hthin := thinning_resetDirectory (join dist stagingDir) w₁.disk hd₁
  rcases hreset : (resetDirectory (join dist stagingDir)).result w₁.disk with ⟨r, d₂⟩
  rw [hreset] at h hthin
  by_cases hleads : w₁.disk.LeadsTo (ofText dist) P
  · obtain ⟨hstaged, hready, hc⟩ := resetDirectory_of_ready (hsettled₁.ready hd₁ hleads) hreset
    have hbefore₂ := hbefore₁.stage hc hthin.2
    cases r with
    | error f₂ =>
      cases h
      exact .inl hbefore₂
    | ok u =>
      rcases rejected_or_changes_stage (w := w₁.on d₂) (hstaged rfl).1 hlogged₁ hagents
        (hfiles _ _ _ hin) h with hrejected | ⟨-, hc', hthin'⟩
      · exact .inr hrejected
      · exact .inl (hbefore₂.stage hc' hthin')
  · have hfree : w₁.disk.get? P = none := by
      rcases hplace with hP | hP
      · exact absurd (hP.mono hgrows₁.keeps hgrows₁.home) hleads
      · rw [hc₁.entry P ?_, hP]
        rintro ⟨name, -, heq⟩
        simpa [spot] using congrArg List.length heq
    obtain ⟨hstaged, hd₂, hfurn⟩ := resetDirectory_of_free hd₁ hsettled₁ hfree hleads hreset
    have hbare := hfurn.entry_append hd₁ hfree [ofText Artifact.codeManifest]
    cases r with
    | error f₂ =>
      cases h
      refine .inr (rejected_of_no_code fun Q hQ => ?_)
      obtain ⟨rfl, -⟩ := hsettled₁.leads d₂ Q hfurn.grows hQ
      exact hbare
    | ok u =>
      rcases rejected_or_changes_stage (w := w₁.on d₂) (hstaged rfl) hlogged₁ hagents
        (hfiles _ _ _ hin) h with hrejected | ⟨hready, hc', -⟩
      · exact .inr hrejected
      · refine .inr (rejected_of_mid_code hready ?_)
        rw [hc'.entry _ (not_below_stage_spot (by decide))]
        exact hbare

/-! ### Two passes that fail -/

/-- Whether something fails. -/
def failed : Except Failure α → Bool
  | .ok _ => false
  | .error _ => true

theorem exists_of_failed {x : Action World α} (h : failed (x.result w).1) :
    ∃ f w', x.result w = (.error f, w') := by
  rcases hres : x.result w with ⟨f | a, w'⟩
  · exact ⟨f, w', rfl⟩
  · rw [hres] at h
    cases h

/-- Whether the package files that were read are named by single names. -/
def namesOk : Except Failure (Discovery × VendorManifest) → Bool
  | .ok (_, vendor) => vendor.packageFiles.all fun p => IsName p.2
  | .error _ => true

theorem filesNamed_of_namesOk
    (h : namesOk ((inputs root config).result w).1) : FilesNamed root config w := by
  intro discovery vendor w' hin p hp
  rw [hin] at h
  exact of_decide_eq_true (List.all_eq_true.1 h p hp)

def placeOf (names : List String) : Place :=
  names.map ofText

/-- A workspace at `/w` with one agent, package files and a vendor manifest that lists them, and more.
-/
def workspace (packages : List (String × String)) (manifest : String)
    (more : List (Place × Entry)) : World where
  disk :=
    { entries := [(placeOf ["w"], .directory), (placeOf ["w", "agent"], .directory),
        (placeOf ["w", "agent", "main.py"], .file (ofText "x")),
        (placeOf ["w", "vendor"], .directory),
        (placeOf ["w", "vendor", VendorManifest.fileName], .file (ofText manifest))] ++
        packages.map (fun p => (placeOf ["w", "vendor", p.1], .file (ofText p.2))) ++
        (placeOf ["w", "dist"], .directory) :: more
      home := [] }
  reported := []
  logs := []
  clock := ⟨0⟩
  supply := fun _ => ""
  drawn := 0

/-- A workspace with artifacts of an earlier pass that lacks a package file. -/
def incomplete : World :=
  workspace [("a", "A")]
    "[\"\",\"\",\"\",\"\",\"\",[],[],[],\x7b\x7d,\x7b\"p\":\"a\",\"q\":\"b\"\x7d,[]]"
    (artifacts.map fun name => (placeOf ["w", "dist", name], .file (ofText "x")))

set_option maxRecDepth 100000

/-- What is left by a pass that lacks a package file. -/
theorem rejected_or_asBefore_of_incomplete :
    ∃ f w', (run "/w" {}).result incomplete = (.error f, w') ∧
      (AsBefore (placeOf ["w", "dist"]) incomplete.disk w'.disk ∨ Rejected "/w/dist" w'.disk) := by
  have hsound : incomplete.disk.Sound := sound_of_fits (by decide +kernel)
  have hleads : (incomplete.disk.apart (rewritten (placeOf ["w", "dist"]))).LeadsTo
      (ofText "/w/dist") (placeOf ["w", "dist"]) :=
    walkLinks_eq_present_directory_iff.1 (by rfl)
  have hplain : ∀ name ∈ passing, incomplete.disk.Plain (spot (placeOf ["w", "dist"]) name) :=
    fun name hname => hsound.plain_of_free (by revert name; decide +kernel)
  obtain ⟨f, w', h⟩ := exists_of_failed (x := run "/w" {}) (w := incomplete) (by decide +kernel)
  exact ⟨f, w', h, asBefore_or_rejected_of_failure "/w" {} incomplete w' f _ hsound
    (by simp [Logged, incomplete, workspace]) (settled_of_leadsTo hleads hplain)
    (.inl hleads.of_apart) (filesNamed_of_namesOk (by decide +kernel)) h⟩

/-- The directory of the artifacts by a detour through a directory that is still to be made. -/
def detour : Config :=
  { layout := { distDir := "b/../dist" } }

/-- The manifest of an archive that holds the letter `A` and nothing else. -/
def letterManifest : String :=
  "[1,\"\",\"\",\"\",\"\",\"\"," ++
    "\"559aead08264d5795d3909718cdd05abd49572e84fe55590eef31a88a08fdffd\"," ++
    "null,[],null,null,null,null,null]"

/-- A workspace that lacks a package file, where a pass was interrupted that left links to the
artifacts in the staging directory. -/
def interrupted : World :=
  let staging := [".staging", "deps", "packages"]
  workspace [("a", "A"), ("b", letterManifest), ("c", "A"), ("d", letterManifest)]
    ("[\"\",\"\",\"\",\"\",\"\",[],[],[],\x7b\x7d," ++
      "\x7b\"p\":\"a\",\"q\":\"b\",\"r\":\"c\",\"s\":\"d\",\"t\":\"e\"\x7d,[]]")
    ((List.range 3).map (fun n => (placeOf (["w", "dist"] ++ staging.take (n + 1)), .directory)) ++
      [("a", Artifact.codeArchive), ("b", Artifact.codeManifest), ("c", Artifact.depsArchive),
        ("d", Artifact.depsManifest)].map fun p =>
          (placeOf (["w", "dist"] ++ staging ++ [p.1]), .symlink (ofText ("../../../" ++ p.2))))

/-- A pass that comes by a detour does not find the old staging directory, so that it is not made
anew, and package files are written through the links in it. The pass fails, the artifacts have
changed, and verification accepts them. -/
theorem mixed_pair_accepted_after_failure :
    interrupted.disk.Sound ∧ FilesNamed "/w" detour interrupted ∧
      ∃ f w', (run "/w" detour).result interrupted = (.error f, w') ∧
        (∀ name ∈ artifacts, interrupted.disk.get? (placeOf ["w", "dist", name]) = none ∧
          w'.disk.get? (placeOf ["w", "dist", name]) ≠ none) ∧
        ∃ pair w'', (Verify.dist (detour.distDir "/w")).result w' = (.ok pair, w'') := by
  refine ⟨sound_of_fits (by decide +kernel), filesNamed_of_namesOk (by decide +kernel), ?_⟩
  have hrun : failed ((run "/w" detour).result interrupted).1 = true ∧
      (∀ name ∈ artifacts, interrupted.disk.get? (placeOf ["w", "dist", name]) = none ∧
        ((run "/w" detour).result interrupted).2.disk.get? (placeOf ["w", "dist", name]) ≠ none) ∧
      failed ((Verify.dist (detour.distDir "/w")).result
        ((run "/w" detour).result interrupted).2).1 = false := by
    decide +kernel
  obtain ⟨hfailed, hchanged, haccepted⟩ := hrun
  obtain ⟨f, w', h⟩ := exists_of_failed hfailed
  rw [h] at hchanged haccepted
  refine ⟨f, w', h, hchanged, ?_⟩
  rcases hres : (Verify.dist (detour.distDir "/w")).result w' with ⟨f' | pair, w''⟩
  · rw [hres] at haccepted
    cases haccepted
  · exact ⟨pair, w'', rfl⟩

end Package

end AgentChain
