import AgentChain.Proofs.Package.Artifacts

/-!
# Passes of packaging that succeed

What a pass of packaging leaves passes verification with exactly the manifests that it returns, and
each archive can be unpacked into an empty directory, where the tree is accepted by its manifest.
This holds on every disk on which the targets of links are texts, as long as the pass writes into the
directory of the artifacts when it means to.
-/

namespace AgentChain.Package

open AgentChain.Action Disk
open Bytes (ofText)
open AgentChain.Path (IsName join)
open World (onDisk onDisk_bind_eq_ok)
open Gzip (Encoder LawfulEncoder)
open Artifact (code deps)

variable {dist root : String} {config : Config} {P : Place} {d d' : Disk} {w w' : World}
  {o : Outcome} {discovery : Discovery} {vendor : VendorManifest} {base m : ArchiveManifest}

/-! ### The artifacts of a pass -/

/-- The artifacts of a pass stand in their directory, with the manifests that the pass returns. -/
structure Delivered [Encoder] (dist : String) (P : Place) (o : Outcome) (d : Disk) : Prop where
  ready : Ready dist P d
  code_eq : o.code = code dist
  deps_eq : o.deps = deps dist
  code : Made dist P Artifact.codeArchive Artifact.codeManifest o.codeManifest d
  deps : Made dist P Artifact.depsArchive Artifact.depsManifest o.depsManifest d

namespace Delivered

theorem changes [Encoder] (h : Delivered dist P o d) (hready : Ready dist P d')
    (hc : Changes T d d') (hT : ∀ name ∈ artifacts, ¬ T (spot P name)) : Delivered dist P o d' where
  ready := hready
  code_eq := h.code_eq
  deps_eq := h.deps_eq
  code := h.code.changes hc (hT _ kind_code.archive_mem) (hT _ kind_code.manifest_mem)
  deps := h.deps.changes hc (hT _ kind_deps.archive_mem) (hT _ kind_deps.manifest_mem)

theorem reporting [Encoder] (h : Delivered dist P o w.disk) (hlogged : Logged dist w) (e : Event)
    :
    Delivered dist P o (w.reporting e).disk := by
  obtain ⟨hready, hc⟩ := step_reporting hlogged e h.ready
  refine h.changes hready hc fun name hname => ?_
  rw [spots_iff, List.mem_singleton]
  rintro rfl
  exact absurd hname (by decide)

theorem result_dist [Encoder] (h : Delivered dist P o w.disk) (hlogged : Logged dist w) :
    ∃ w', (Verify.dist dist).result w =
      (.ok { code := o.codeManifest, deps := o.depsManifest }, w') := by
  have hcode : Verify.Authentic w.disk (Artifact.code dist) o.codeManifest :=
    h.code.authentic h.ready kind_code
  have hdeps : ∀ e, Verify.Authentic (w.reporting e).disk (Artifact.deps dist) o.depsManifest :=
    fun e => (h.reporting hlogged e).deps.authentic (h.reporting hlogged e).ready kind_deps
  rcases Verify.dist_cases dist w with ⟨code, deps, hcode', hdeps', hres⟩ | ⟨code, -, -, hnone, -⟩ |
    ⟨hnone, -⟩
  · obtain rfl := hcode.unique hcode'
    obtain rfl := (hdeps _).unique hdeps'
    exact ⟨_, hres⟩
  · exact absurd (hdeps _) (hnone _)
  · exact absurd hcode (hnone _)

end Delivered

/-! ### Legible disks -/

theorem legible_inputs (h : (inputs root config).result w = (r, w'))
    (hw : w.disk.LegibleIn A) : w'.disk.LegibleIn A := by
  have hreported := reported_inputs root config w
  rw [h] at hreported
  exact hreported.moves (R := fun w w' => w.disk.LegibleIn A → w'.disk.LegibleIn A)
    (frame_keeps fun w : World => w.disk.LegibleIn A) (fun w e hw => World.legible_reporting hw e) hw

theorem growing_buildDepsTree (vendorDir : String) (vendor : VendorManifest) (tree : String) :
    Moves Growing (buildDepsTree vendorDir vendor tree) := by
  have hR := Growing.frame
  refine closed_buildDepsTree (OnDisk.closed_changes hR) (fun _ => trivial)
    (fun path => OnDisk.moves_change hR fun d d' h hd => ?_)
    (fun source path => OnDisk.moves_change hR fun d d' h hd => ?_) _ _ _
  · have ⟨hd', hfurnished⟩ := Furnishing.createDirectory d path d' h hd
    exact ⟨hd', hfurnished.grows⟩
  · obtain ⟨_, _, p, -, hp, rfl⟩ := copy_eq_ok h
    exact ⟨hd.copy h, hd.grows_fill (hd.of_writePlace hp)⟩

theorem Staged.growing (h : Staged dist P d) (hg : Growing d d') : Staged dist P d' :=
  have ⟨hd', hgrows⟩ := hg h.ready.sound
  { ready := ⟨hd', hgrows.leadsTo h.ready.leads, fun name hname =>
      (h.ready.plain name hname).grows hgrows⟩
    opened := fun hclosed => h.opened (hgrows.closed P hclosed)
    directory := hgrows.directory _ h.directory
    plain := fun q hq => (h.plain q hq).grows hgrows }

theorem Staged.legibleTree (h : Staged dist P d) (hd : d.LegibleIn (stage P <+: ·))
    (hname : IsName name) : d.LegibleTree (join (join dist stagingDir) name) := by
  refine fun found => hd.tree fun Q e hres q hq => ?_
  rw [h.of_resolve hname hres] at hq
  exact (List.prefix_append ..).trans hq

/-! ### A pass -/

theorem staged_of_reset (hd : d.Sound) (hsettled : Settled d dist P)
    (hplace : d.LeadsTo (ofText dist) P ∨ d.get? P = none)
    (hreset : (resetDirectory (join dist stagingDir)).result d = (.ok u, d')) :
    Staged dist P d' ∧ ∀ q c, inside (stage P) q → d'.get? q ≠ some (.file c) := by
  by_cases hleads : d.LeadsTo (ofText dist) P
  · obtain ⟨hstaged, hbare⟩ := (resetDirectory_of_ready (hsettled.ready hd hleads) hreset).1 rfl
    exact ⟨hstaged, fun q c hq => by rw [hbare q hq]; simp⟩
  · have hnone := hplace.resolve_left hleads
    obtain ⟨hstaged, -, hfurn⟩ := resetDirectory_of_free hd hsettled hnone hleads hreset
    refine ⟨hstaged rfl, fun q c hq => ?_⟩
    obtain ⟨names, -, rfl⟩ := inside_iff.1 hq
    rw [stage, spot, List.append_assoc]
    rcases hfurn.entry_append hd hnone ([ofText stagingDir] ++ names) with h | h
    all_goals rw [h]; simp

theorem legible_of_reset (hd : d.LegibleIn fun _ => False) (hsettled : Settled d dist P)
    (hplace : d.LeadsTo (ofText dist) P ∨ d.get? P = none)
    (hreset : (resetDirectory (join dist stagingDir)).result d = (.ok u, d')) :
    d'.LegibleIn (stage P <+: ·) := by
  have hC := fun A => closed_resetDirectory (OnDisk.closed_legible (A := A)) (join dist stagingDir)
  by_cases hleads : d.LeadsTo (ofText dist) P
  · have hd' := (hC _).of_result hreset hd
    obtain ⟨-, hbare⟩ := (resetDirectory_of_ready (hsettled.ready hd.sound hleads) hreset).1 rfl
    exact ⟨hd'.sound, fun _ _ ⟨_, heq⟩ hsome =>
      (hsome (hbare _ (by simp [inside_iff, ← heq]))).elim, hd'.targets⟩
  · have hnone := hd.sound.get?_append_of_free (hplace.resolve_left hleads)
    refine (hC _).of_result hreset ⟨hd.sound, fun _ _ ⟨_, heq⟩ hsome => (hsome ?_).elim, hd.targets⟩
    rw [← heq, stage, spot, List.append_assoc, List.append_assoc, hnone]

theorem staged_of_removes (hstaged : Staged dist P d)
    (hcode : (code dist).remove.result d = (.ok u, d₁))
    (hdeps : (deps dist).remove.result d₁ = (.ok u', d')) : Staged dist P d' := by
  have hmid : Mid dist P [] d := ⟨hstaged, by simp⟩
  have hmid₁ := (ensures_remove kind_code d ⟨rfl, hmid⟩).1 _ _ hcode
  exact ((ensures_remove kind_deps d₁ ⟨rfl, hmid₁⟩).1 _ _ hdeps).1

section Trees

variable {runtimeDir vendorDir : String} {registry : Registry} {u u' u'' : Unit} {d₁ d₂ d₃ : Disk}
  (hd : d.LegibleIn A) (hcode : (code dist).remove.result d = (.ok u, d₁))
  (hdeps : (deps dist).remove.result d₁ = (.ok u', d₂))
  (hbuild : (buildCodeTree runtimeDir discovery
    (join (join dist stagingDir) "code")).result d₂ = (.ok registry, d₃))
  (hbuild' : (buildDepsTree vendorDir vendor
    (join (join dist stagingDir) "deps")).result d₃ = (.ok u'', d'))
include hcode hdeps hbuild hbuild'

theorem staged_of_trees (hstaged : Staged dist P d)
    (hagents : ∀ agent ∈ discovery.agents, IsName agent.name) : Staged dist P d' := by
  have hstaged₂ := staged_of_removes hstaged hcode hdeps
  have hstaged₃ := ((moves_pass_of_confined
    (confined_buildCodeTree runtimeDir discovery hagents)).of_result hbuild hstaged₂).1
  exact hstaged₃.growing ((growing_buildDepsTree _ _ _).of_result hbuild')

include hd in
theorem legible_of_trees : d'.LegibleIn A := by
  have hC := OnDisk.closed_legible (A := A)
  have hd₂ := (closed_remove hC _).of_result hdeps ((closed_remove hC _).of_result hcode hd)
  have hd₃ := (closed_buildCodeTree hC (fun _ => trivial) (fun _ _ => trivial) _ _ _).of_result hbuild hd₂
  exact (closed_buildDepsTree hC (fun _ => trivial) .createDirectory .copy _ _ _).of_result hbuild' hd₃

end Trees

theorem legible_of_finish [Encoder] (hd : d.LegibleIn A)
    (h : (finish tree artifact base).result d = (.ok m, d')) : d'.LegibleIn A :=
  (closed_finish OnDisk.closed_legible (fun _ => trivial) _ _ _).of_result h hd

theorem delivered_of_runIn [Encoder] (hstaged : Staged dist P w.disk)
    (hlegible : w.disk.LegibleIn (stage P <+: ·))
    (hlogged : Logged dist w) (hagents : ∀ agent ∈ discovery.agents, IsName agent.name)
    (hvendor : Json.Ascending vendor.packageFiles)
    (hrun : (runIn root config discovery vendor dist (join dist stagingDir)).result w =
      (.ok o, w')) :
    Delivered dist P o w'.disk ∧ Logged dist w' := by
  obtain ⟨⟨⟩, d₁, hremove, hrun⟩ := onDisk_bind_eq_ok.1 hrun
  obtain ⟨⟨⟩, d₂, hremove', hrun⟩ := onDisk_bind_eq_ok.1 hrun
  obtain ⟨registry, d₃, hbuild, hrun⟩ := onDisk_bind_eq_ok.1 hrun
  obtain ⟨⟨⟩, d₄, hbuild', hrun⟩ := onDisk_bind_eq_ok.1 hrun
  have hstaged₄ := staged_of_trees hremove hremove' hbuild hbuild' hstaged hagents
  have hd₄ := legible_of_trees hlegible hremove hremove' hbuild hbuild'
  -- the code artifact, and the event about it
  obtain ⟨codeManifest, d₅, hcode, hrun⟩ := onDisk_bind_eq_ok.1 hrun
  have hstaged₅ := (((step_finish kind_code _ _).of_result hcode).pass (by decide) hstaged₄).1
  have hmade₅ := made_of_finish kind_code hstaged₄.ready (hstaged₄.legibleTree hd₄ (by decide))
    (by rintro _ ⟨⟩) hcode
  obtain ⟨⟨⟩, w₆, hreport, hrun⟩ := result_bind_eq_ok.1 hrun
  cases hreport
  have hstep₆ := step_reporting (w := w.on d₅) hlogged (writtenEvent codeManifest) (P := P)
  obtain ⟨hready₆, hc₆⟩ := hstep₆ hstaged₅.ready
  have hd₆ := World.legible_reporting (w := w.on d₅) (legible_of_finish hd₄ hcode)
    (writtenEvent codeManifest)
  have hmade₆ := hmade₅.changes hc₆ (by rw [spots_iff]; decide) (by rw [spots_iff]; decide)
  -- the dependency artifact, and the event about it
  obtain ⟨depsManifest, d₇, hdeps, hrun⟩ := onDisk_bind_eq_ok.1 hrun
  obtain ⟨hready₇, hc₇⟩ := hready₆.of_result (step_finish kind_deps _ _) hdeps
  have hmade₇ := hmade₆.changes hc₇ (by rw [spots_iff]; decide) (by rw [spots_iff]; decide)
  have hascending : ∀ files, some vendor.packageFiles = some files → Json.Ascending files := by
    rintro _ ⟨⟩
    exact hvendor
  have hmade₇' := made_of_finish kind_deps hready₆
    ((hstep₆.pass (by decide) hstaged₅).1.legibleTree hd₆ (by decide)) hascending hdeps
  obtain ⟨⟨⟩, w₈, hreport, hrun⟩ := result_bind_eq_ok.1 hrun
  cases hreport
  cases hrun
  have hdelivered : Delivered dist P
      ⟨code dist, codeManifest, deps dist, depsManifest⟩ d₇ :=
    ⟨hready₇, rfl, rfl, hmade₇, hmade₇'⟩
  exact ⟨hdelivered.reporting (w := w.on d₇) hlogged _, hlogged⟩

/-- What is read from a workspace: agents with names, and a vendor manifest with its package files in
ascending order. -/
theorem of_inputs (h : (inputs root config).result w = (.ok (discovery, vendor), w')) :
    (∀ agent ∈ discovery.agents, IsName agent.name) ∧ Json.Ascending vendor.packageFiles := by
  obtain ⟨discovery', w₁, hscan, h⟩ := result_bind_eq_ok.1 h
  obtain ⟨vendor', w₂, hload, h⟩ := result_bind_eq_ok.1 h
  cases h
  refine ⟨Discovery.isName_of_scan hscan, ?_⟩
  have hread := result_within_eq_ok.1 (World.of_result_onDisk hload).1
  rcases Storage.result_readDocument VendorManifest.ofDocument? _ w₁.disk with
    ⟨text, m, -, hparsed, hres⟩ | ⟨-, f, hres⟩
  · obtain rfl : m = vendor := Except.ok.inj (Prod.mk.inj (hres.symm.trans hread)).1
    obtain ⟨document, -, hm⟩ := Option.bind_eq_some_iff.1 hparsed
    exact VendorManifest.ascending_packageFiles hm
  · cases hres.symm.trans hread

theorem run_eq_ok [Encoder] (hrun : (run root config).result w = (.ok o, w')) :
    ∃ discovery vendor w₁ w₂ w₃, (inputs root config).result w = (.ok (discovery, vendor), w₁) ∧
      (onDisk (resetDirectory (join (config.distDir root) stagingDir))).result w₁ = (.ok (), w₂) ∧
      (runIn root config discovery vendor (config.distDir root)
        (join (config.distDir root) stagingDir)).result w₂ = (.ok o, w₃) ∧
      w' = w₃.on (unstaged (config.distDir root) w₃.disk) := by
  obtain ⟨⟨discovery, vendor⟩, w₁, hinputs, hrun⟩ := result_bind_eq_ok.1 hrun
  obtain ⟨⟨⟩, w₂, hreset, hrun⟩ := result_bind_eq_ok.1 hrun
  rcases hstaged : (runIn root config discovery vendor (config.distDir root)
    (join (config.distDir root) stagingDir)).result w₂ with ⟨r, w₃⟩
  cases (result_staging hstaged).symm.trans hrun
  exact ⟨discovery, vendor, w₁, w₂, w₃, hinputs, hreset, hstaged, rfl⟩

theorem settled_of_inputs (hsound : w.disk.Sound) (hlogged : Logged (config.distDir root) w)
    (hsettled : Settled w.disk (config.distDir root) P)
    (hplace : w.disk.LeadsTo (ofText (config.distDir root)) P ∨ w.disk.get? P = none)
    (h : (inputs root config).result w = (.ok (discovery, vendor), w')) :
    Logged (config.distDir root) w' ∧ Settled w'.disk (config.distDir root) P ∧
      (w'.disk.LeadsTo (ofText (config.distDir root)) P ∨ w'.disk.get? P = none) := by
  obtain ⟨hlogged', hearly⟩ := (early_inputs root config).of_result h hlogged
  obtain ⟨-, hgrows, hc⟩ := hearly hsound hsettled
  refine ⟨hlogged', hsettled.grows hgrows,
    hplace.imp (fun hP => hP.mono hgrows.keeps hgrows.home) fun hP => ?_⟩
  rw [hc.entry P ?_, hP]
  rintro ⟨name, -, heq⟩
  simpa [spot] using congrArg List.length heq

theorem delivered_of_run [Encoder] (hlegible : w.disk.LegibleIn fun _ => False)
    (hlogged : Logged (config.distDir root) w) (hsettled : Settled w.disk (config.distDir root) P)
    (hplace : w.disk.LeadsTo (ofText (config.distDir root)) P ∨ w.disk.get? P = none)
    (hrun : (run root config).result w = (.ok o, w')) :
    Delivered (config.distDir root) P o w'.disk ∧ Logged (config.distDir root) w' := by
  obtain ⟨discovery, vendor, w₁, w₂, w₃, hinputs, hreset, hrunIn, rfl⟩ := run_eq_ok hrun
  obtain ⟨hagents, hvendor⟩ := of_inputs hinputs
  have hd₁ := legible_inputs hinputs hlegible
  obtain ⟨hlogged₁, hsettled₁, hplace₁⟩ :=
    settled_of_inputs hlegible.sound hlogged hsettled hplace hinputs
  obtain ⟨hreset, hlogs₂⟩ := World.of_result_onDisk hreset
  obtain ⟨hstaged, -⟩ := staged_of_reset hd₁.sound hsettled₁ hplace₁ hreset
  have hd₂ := legible_of_reset hd₁ hsettled₁ hplace₁ hreset
  have hlogged₂ : Logged (config.distDir root) w₂ := by rwa [Logged, hlogs₂]
  obtain ⟨hdelivered, hlogged₃⟩ := delivered_of_runIn hstaged hd₂ hlogged₂ hagents hvendor hrunIn
  obtain ⟨hready₄, hc₄, -⟩ := unstaged_of_ready hdelivered.ready
  refine ⟨hdelivered.changes hready₄ hc₄ fun name hname => not_below_stage_spot ?_, hlogged₃⟩
  rintro rfl
  exact absurd hname (by decide)

/-! ### Passes by evaluation -/

/-- Complete an artifact from a tree that is packed directly. -/
def finishDirectly [Encoder] (tree : String) (artifact : Artifact) (manifest : ArchiveManifest)
    :
    Action Disk ArchiveManifest := do
  let summary ← Archive.packDirectly tree artifact.archive
  let manifest : ArchiveManifest := { manifest with
    files := summary.files
    archiveSha256 := summary.sha256
    archiveSize := some summary.size }
  ArchiveManifest.store artifact.manifest manifest
  return manifest

theorem result_finish_of_directly [Encoder] [LawfulEncoder] (hd : d.Legible)
    (h : (finishDirectly tree artifact base).result d = (.ok m, d')) :
    (finish tree artifact base).result d = (.ok m, d') := by
  obtain ⟨summary, d₁, hpack, h⟩ := result_bind_eq_ok.1 h
  rw [finish, result_bind_of_ok (Archive.result_pack_of_directly hd hpack)]
  exact h

/-- Package a workspace with trees that are packed directly. -/
def runDirectly [Encoder] (root : String) (config : Config) : Action World Outcome := do
  let (discovery, vendor) ← inputs root config
  let dist := config.distDir root
  let staging := join dist stagingDir
  onDisk (resetDirectory staging)
  let code := code dist
  let deps := deps dist
  onDisk code.remove
  onDisk deps.remove
  let codeTree := join staging "code"
  let _ ← onDisk (buildCodeTree (config.runtimeDir root) discovery codeTree)
  let depsTree := join staging "deps"
  onDisk (buildDepsTree (config.vendorDir root) vendor depsTree)
  let codeManifest ← onDisk
    (finishDirectly codeTree code (.new config.runtime Artifact.codeArchive []))
  World.report (writtenEvent codeManifest)
  let depsManifest ← onDisk
    (finishDirectly depsTree deps
      ((ArchiveManifest.new config.runtime Artifact.depsArchive []).mergeVendor vendor))
  World.report (writtenEvent depsManifest)
  let _ ← onDisk (OnDisk.change (·.removeTree staging)).attempt
  return { code, codeManifest, deps, depsManifest }

theorem result_run_of_directly [Encoder] [LawfulEncoder] (hlegible : w.disk.Legible)
    (h : (runDirectly root config).result w = (.ok o, w')) :
    (run root config).result w = (.ok o, w') := by
  obtain ⟨⟨discovery, vendor⟩, w₁, hinputs, h⟩ := result_bind_eq_ok.1 h
  have hd₁ := legible_inputs hinputs hlegible
  obtain ⟨⟨⟩, d₂, hreset, h⟩ := onDisk_bind_eq_ok.1 h
  have hd₂ := (closed_resetDirectory OnDisk.closed_legible _).of_result hreset hd₁
  obtain ⟨⟨⟩, d₃, hremove, h⟩ := onDisk_bind_eq_ok.1 h
  obtain ⟨⟨⟩, d₄, hremove', h⟩ := onDisk_bind_eq_ok.1 h
  obtain ⟨registry, d₅, hbuild, h⟩ := onDisk_bind_eq_ok.1 h
  obtain ⟨⟨⟩, d₆, hbuild', h⟩ := onDisk_bind_eq_ok.1 h
  have hd₆ := legible_of_trees hd₂ hremove hremove' hbuild hbuild'
  obtain ⟨codeManifest, d₇, hcode, h⟩ := onDisk_bind_eq_ok.1 h
  have hcode' := result_finish_of_directly hd₆ hcode
  obtain ⟨⟨⟩, w₈, hreport, h⟩ := result_bind_eq_ok.1 h
  cases hreport
  have hd₈ := World.legible_reporting (w := w₁.on d₇) (legible_of_finish hd₆ hcode')
    (writtenEvent codeManifest)
  obtain ⟨depsManifest, d₉, hdeps, h⟩ := onDisk_bind_eq_ok.1 h
  have hdeps' := result_finish_of_directly hd₈ hdeps
  obtain ⟨⟨⟩, w₁₀, hreport', h⟩ := result_bind_eq_ok.1 h
  obtain ⟨discarded, w₁₁, hdiscard, h⟩ := result_bind_eq_ok.1 h
  cases h
  have hrun : (runIn root config discovery vendor (config.distDir root)
      (join (config.distDir root) stagingDir)).result (w₁.on d₂) =
        (.ok ⟨_, codeManifest, _, depsManifest⟩, w₁₀) :=
    onDisk_bind_eq_ok.2 ⟨_, _, hremove, onDisk_bind_eq_ok.2 ⟨_, _, hremove',
      onDisk_bind_eq_ok.2 ⟨_, _, hbuild, onDisk_bind_eq_ok.2 ⟨_, _, hbuild',
        onDisk_bind_eq_ok.2 ⟨_, _, hcode', result_bind_eq_ok.2 ⟨_, _, rfl,
          onDisk_bind_eq_ok.2 ⟨_, _, hdeps', result_bind_eq_ok.2 ⟨_, _, hreport', rfl⟩⟩⟩⟩⟩⟩⟩⟩
  refine result_bind_eq_ok.2 ⟨_, _, hinputs, onDisk_bind_eq_ok.2 ⟨_, _, hreset, ?_⟩⟩
  rw [result_bind, result_attempt, hrun]
  simp only
  rw [result_bind_of_ok hdiscard]
  rfl

/-! ### Passes that succeed -/

/-- A pass that succeeds leaves artifacts that pass verification with the manifests that it returns.
Each archive can be unpacked into an empty directory, if the paths of the files there are not too
long, and its manifest accepts the tree. The targets of links are texts; names need not be. -/
theorem verified_of_success [Encoder] [LawfulEncoder] (root : String) (config : Config)
    (w w' : World) (o : Outcome) (P : Place) (hd : w.disk.Sound)
    (htargets : ∀ p t, w.disk.get? p = some (.symlink t) → t.IsText)
    (hlogged : Logged (config.distDir root) w) (hsettled : Settled w.disk (config.distDir root) P)
    (hplace : w.disk.LeadsTo (ofText (config.distDir root)) P ∨ w.disk.get? P = none)
    (h : (run root config).result w = (.ok o, w')) :
    (∃ w'', (Verify.dist (config.distDir root)).result w' =
      (.ok { code := o.codeManifest, deps := o.depsManifest }, w'')) ∧
    ∀ a m, (a, m) ∈ [(o.code, o.codeManifest), (o.deps, o.depsManifest)] →
      ∀ dest D, w'.disk.Fresh dest D →
        (∀ e ∈ m.files, (ofText (join dest e.filename)).length < pathLimit) →
        ∃ d, (Archive.unpack a.archive dest).result w'.disk = (.ok (), d) ∧
          (Verify.tree m dest).result d = (.ok (), d) := by
  obtain ⟨hdelivered, hlogged'⟩ := delivered_of_run ⟨hd, nofun, htargets⟩ hlogged hsettled hplace h
  refine ⟨hdelivered.result_dist hlogged', fun a m hmem dest D hfresh hroom => ?_⟩
  rcases List.mem_pair.1 hmem with heq | heq
  · obtain ⟨rfl, rfl⟩ := Prod.mk.inj heq
    rw [hdelivered.code_eq]
    exact hdelivered.code.result_unpack hdelivered.ready kind_code hfresh hroom
  · obtain ⟨rfl, rfl⟩ := Prod.mk.inj heq
    rw [hdelivered.deps_eq]
    exact hdelivered.deps.result_unpack hdelivered.ready kind_deps hfresh hroom

/-- A vendor manifest that lists one package file. -/
def vendored : String :=
  "[\"\",\"\",\"\",\"\",\"\",[],[],[],\x7b\x7d,\x7b\"p\":\"a\"\x7d,[]]"

/-- A workspace with an agent and a package file. -/
def whole : World :=
  workspace [("a", "A")] vendored []

set_option maxRecDepth 100000

theorem legible_whole : whole.disk.Legible :=
  legible_of_fits (by decide +kernel)

theorem plain_whole : ∀ name ∈ passing, whole.disk.Plain (spot (placeOf ["w", "dist"]) name) :=
  fun name hname => legible_whole.sound.plain_of_free (by revert name; decide +kernel)

/-- Whether there is room for the files of the code artifact below a path. -/
def hasRoom (dest : String) : Except Failure Outcome → Bool
  | .ok o => o.codeManifest.files.all fun e =>
      (ofText (join dest e.filename)).length < pathLimit
  | .error _ => false

/-- What is packaged from a workspace passes verification, and its code can be unpacked. -/
theorem verified_of_whole :
    ∃ o w' w'' d, (run "/w" {}).result whole = (.ok o, w') ∧
      (Verify.dist "/w/dist").result w' =
        (.ok { code := o.codeManifest, deps := o.depsManifest }, w'') ∧
      (Archive.unpack o.code.archive "/w/out").result w'.disk = (.ok (), d) ∧
      (Verify.tree o.codeManifest "/w/out").result d = (.ok (), d) := by
  have hleads : (whole.disk.apart (rewritten (placeOf ["w", "dist"]))).LeadsTo
      (ofText "/w/dist") (placeOf ["w", "dist"]) :=
    walkLinks_eq_present_directory_iff.1 (by rfl)
  have hrun : hasRoom "/w/out" ((runDirectly "/w" {}).result whole).1 = true ∧
      ((runDirectly "/w" {}).result whole).2.disk.Fresh "/w/out" (placeOf ["w", "out"]) := by
    decide +kernel
  rcases hres : (runDirectly "/w" {}).result whole with ⟨f | o, w'⟩
  · rw [hres] at hrun
    cases hrun.1
  · rw [hres] at hrun
    have h := result_run_of_directly legible_whole hres
    obtain ⟨⟨w'', hdist⟩, hunpack⟩ := verified_of_success "/w" {} whole w' o _
      legible_whole.sound legible_whole.targets (by simp [Logged, whole, workspace]) (settled_of_leadsTo hleads plain_whole)
      (.inl hleads.of_apart) h
    obtain ⟨d, hd, htree⟩ := hunpack o.code o.codeManifest List.mem_cons_self "/w/out" _ hrun.2
      (by simpa [hasRoom] using hrun.1)
    exact ⟨o, w', w'', d, h, hdist, hd, htree⟩

/-- A workspace where the name under which the manifest of the code artifact is written leads into
the staging directory. -/
def linked : World :=
  workspace [("a", "A")] vendored
    [(placeOf ["w", "dist", Artifact.codeManifest ++ ".tmp"], .symlink (ofText ".staging/m"))]

/-- A manifest that is written through a link into the staging directory goes with it. The pass
succeeds, and verification does not find the manifest. -/
theorem rejected_after_success :
    linked.disk.Legible ∧ ∃ o w', (run "/w" {}).result linked = (.ok o, w') ∧
      ∃ w'', (Verify.dist "/w/dist").result w' =
        (.error (.integrity (.missing .manifest "/w/dist/code.manifest.json")), w'') := by
  have hlegible : linked.disk.Legible := legible_of_fits (by decide +kernel)
  have hrun : ((runDirectly "/w" {}).result linked).1.toOption.isSome ∧
      ((Verify.dist "/w/dist").result ((runDirectly "/w" {}).result linked).2).1 =
        .error (.integrity (.missing .manifest "/w/dist/code.manifest.json")) := by
    decide +kernel
  obtain ⟨o, w', hres⟩ := exists_of_isSome hrun.1
  rw [hres] at hrun
  exact ⟨hlegible, o, w', result_run_of_directly hlegible hres, _, Prod.ext hrun.2 rfl⟩

end AgentChain.Package
