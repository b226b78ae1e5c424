import AgentChain.Proofs.Package.Build

/-!
# A pass of packaging

A pass starts with what is read from the workspace, makes the staging directory anew, removes the
artifacts of an earlier pass and makes new ones. Until the manifest of an artifact is moved to its
place there is no such manifest, so a pass that fails leaves everything as it was or a directory that
is rejected.
-/

namespace AgentChain.Package

open AgentChain.Action Disk
open AgentChain.Path (IsName join)
open Artifact (depsArchive depsManifest codeArchive codeManifest)

variable {α : Type} {dist : String} {P : Place} {d d' : Disk} {name : String}
  {names : List String} {w : World}

/-! ### Steps in a pass -/

theorem not_inside_spot : ¬ inside (stage P) (spot P name) := by
  intro h
  obtain ⟨rest, hne, heq⟩ := inside_iff.1 h
  exact hne (by simpa [spot] using congrArg List.length heq)

theorem Staged.workplace (h : Staged dist P d) : Workplace (join dist stagingDir) (stage P) d where
  sound := h.ready.sound
  leads := by
    have himp : ∀ q, inside (stage P) q → rewritten P q := by
      intro q hq
      obtain ⟨rest, -, rfl⟩ := inside_iff.1 hq
      rw [rewritten, List.any_eq_true]
      exact ⟨stagingDir, staging_mem_used, List.isPrefixOf_iff_prefix.2 (List.prefix_append _ _)⟩
    have hdist := h.ready.leads.mono (keeps_apart_of_imp himp) rfl
    rw [(isName_of_mem_used _ staging_mem_used).ofText_join]
    refine hdist.below (proper_of_mem_used _ staging_mem_used) h.opened ?_
    rw [get?_apart, if_neg fun hq => inside_self hq.1]
    exact h.directory
  directory := h.directory
  plain := h.plain

theorem Staged.of_resolve (h : Staged dist P d) (hname : IsName name)
    (hres : d.resolve true (join (join dist stagingDir) name) = .ok (.present Q e)) :
    Q = stage P ++ [Bytes.ofText name] := by
  have hnames : ∀ s ∈ [name], IsName s := by simpa
  rcases h.workplace.of_resolve hnames (by simp) hres with ⟨_, -, ht⟩ | ⟨-, ht⟩ <;> cases ht
  rfl

/-- A staged disk stays one, and nothing changes but what is staged and what stands at some names. -/
def Pass (dist : String) (P : Place) (names : List String) (d d' : Disk) : Prop :=
  Staged dist P d → Staged dist P d' ∧
    Changes (fun q => Spots P names q ∨ inside (stage P) q = true) d d'

theorem Step.pass (h : Step dist P names d d') (hnames : stagingDir ∉ names) :
    Pass dist P names d d' := by
  intro hd
  obtain ⟨hd', hc⟩ := h hd.ready
  refine ⟨⟨hd', fun hq => hd.opened (hc.closed P hq), ?_, fun q hq => ?_⟩, hc.mono fun q => .inl⟩
  · rw [hc.entry _ (by rwa [spots_iff])]
    exact hd.directory
  · refine (hd.plain q hq).changes hc ?_
    rintro ⟨name, -, rfl⟩
    exact not_inside_spot hq

theorem Confined.pass (h : Confined (join dist stagingDir) (stage P) d d') :
    Pass dist P [] d d' := by
  intro hd
  obtain ⟨hd', hc⟩ := h hd.workplace
  have hready := hd.ready.of_changes_stage hd'.sound (hc.mono fun q hq => by
    obtain ⟨rest, -, rfl⟩ := inside_iff.1 hq
    exact List.prefix_append _ _)
  exact ⟨⟨hready, fun hq => hd.opened (hc.closed P hq), hd'.directory, hd'.plain⟩,
    hc.mono fun q => .inr⟩

theorem Pass.free (h : Pass dist P names d d') (hd : Staged dist P d) (hname : name ∉ names)
    (hfree : d.get? (spot P name) = none) : d'.get? (spot P name) = none := by
  rw [(h hd).2.entry _ ?_, hfree]
  rintro (hspot | hin)
  · exact hname (spots_iff.1 hspot)
  · exact not_inside_spot hin

theorem removeFile_cases (h : Ready dist P d) (hname : name ∈ artifacts)
    (hres : (Artifact.removeFile (join dist name)).result d = (r, d')) :
    (d' = d ∧ ∃ f, r = .error f) ∨
      r = .ok () ∧ d'.get? (spot P name) = none ∧ Ready dist P d' ∧ Changes (Spots P [name]) d d' := by
  have hused := mem_used_of_artifacts hname
  have haims := h.aims hused
  cases hremove : d.removeFile (join dist name) with
  | ok d₁ =>
    rw [Artifact.removeFile, result_within, OnDisk.result_change_of_ok (by rw [hremove])] at hres
    obtain ⟨rfl, rfl⟩ := Prod.mk.inj hres
    obtain ⟨e, hget, he, rfl⟩ := haims.removeFile_eq_ok hremove
    obtain ⟨h', hc⟩ := step_erase h hused (by rw [spot, hget]; simpa using he)
    exact .inr ⟨rfl, get?_erase.trans (if_pos ⟨rfl, spot_ne_nil⟩), h', hc⟩
  | error f =>
    by_cases hf : f = .notFound
    · subst hf
      rw [Artifact.removeFile, result_within, OnDisk.result_change_of_ok (by rw [hremove])] at hres
      obtain ⟨rfl, rfl⟩ := Prod.mk.inj hres
      exact .inr ⟨rfl, haims.free_of_removeFile hremove, h, .refl _ _⟩
    · rw [Artifact.removeFile, result_within, OnDisk.result_change_of_error (e := f) (by
        rw [hremove]
        cases f <;> first | exact absurd rfl hf | rfl)] at hres
      obtain ⟨rfl, rfl⟩ := Prod.mk.inj hres
      exact .inl ⟨rfl, _, rfl⟩

/-! ### Events -/

/-- Events are reported beside the artifacts, if anywhere. -/
def Logged (dist : String) (w : World) : Prop :=
  ∀ path ∈ w.logs, path = join dist Config.buildEvents

theorem step_append (hd : d.append (join dist Config.buildEvents) line = .ok d') :
    Step dist P [Config.buildEvents] d d' := by
  intro h
  have hpassing : Config.buildEvents ∈ passing := by decide
  obtain ⟨p, c, hp, rfl⟩ := append_eq_ok hd
  obtain rfl := (h.aims (mem_used_of_passing hpassing)).writePlace_eq (h.plain _ hpassing).link hp
  exact step_fill h hpassing (h.sound.of_writePlace hp)

theorem step_reporting (hw : Logged dist w) (e : Event) :
    Step dist P [Config.buildEvents] w.disk (w.reporting e).disk :=
  World.moves_reporting (Step.frame _ _ _) w e fun path hpath _ _ hd => by
    rw [hw path hpath] at hd
    exact step_append hd

/-! ### What is rejected -/

def Rejected (dist : String) (d : Disk) : Prop :=
  ∀ v : World, v.disk = d → Logged dist v →
    ∃ i v', (Verify.dist dist).result v = (.error (.integrity i), v')

theorem not_authentic (hname : manifest ∈ used) (hbare : ∀ Q, d.LeadsTo (Bytes.ofText dist) Q →
      d.get? (spot Q manifest) = none ∨ d.get? (spot Q manifest) = some .directory)
    (m : ArchiveManifest) : ¬ Verify.Authentic d ⟨archive, join dist manifest⟩ m := by
  intro h
  have hproper := proper_of_mem_used _ hname
  obtain ⟨text, htext, -⟩ := h.described
  have hread := readText_eq_ok.1 htext
  obtain ⟨p, hres⟩ := readBytes_eq_ok.1 hread
  have hbytes : (join dist manifest : Route).bytes =
      Name.below (Bytes.ofText dist) (Bytes.ofText manifest) :=
    (isName_of_mem_used _ hname).ofText_join
  obtain ⟨left, Q, hQ, -⟩ := exists_leadsTo hbytes hproper.ne_nil hproper.no_slash hres
  have hlink : ∀ t, d.get? (Q ++ [Bytes.ofText manifest]) ≠ some (.symlink t) := fun t ht => by
    rcases hbare Q hQ with h | h <;> rw [spot, ht] at h <;> cases h
  have hget := (aims_join hproper hQ).readBytes_eq_ok hlink hread
  rcases hbare Q hQ with h | h <;> rw [spot, hget] at h <;> cases h

theorem rejected_of_no_code (hbare : ∀ Q, d.LeadsTo (Bytes.ofText dist) Q →
      d.get? (spot Q codeManifest) = none ∨
        d.get? (spot Q codeManifest) = some .directory) : Rejected dist d := by
  rintro v rfl -
  have hnot : ∀ m, ¬ Verify.Authentic v.disk (Artifact.code dist) m :=
    not_authentic (mem_used_of_artifacts kind_code.manifest_mem) hbare
  rcases Verify.dist_cases dist v with ⟨m, -, hm, -⟩ | ⟨m, -, hm, -⟩ | ⟨-, i, hres⟩
  · exact absurd hm (hnot m)
  · exact absurd hm (hnot m)
  · exact ⟨i, _, hres⟩

theorem rejected_of_no_deps (h : Ready dist P d)
    (hfree : d.get? (spot P depsManifest) = none) : Rejected dist d := by
  rintro v rfl hv
  rcases Verify.dist_cases dist v with ⟨code, m, -, hm, -⟩ | ⟨_, i, -, -, hres⟩ | ⟨-, i, hres⟩
  · obtain ⟨h', hc⟩ := step_reporting hv (Verify.acceptedEvent (Artifact.code dist) code) h
    refine absurd hm (not_authentic (mem_used_of_artifacts kind_deps.manifest_mem) (fun Q hQ => ?_) m)
    obtain rfl := hQ.unique h'.leadsTo
    left
    rw [hc.entry _ (by rw [spots_iff]; decide), hfree]
  · exact ⟨i, _, hres⟩
  · exact ⟨i, _, hres⟩

/-! ### A pass that fails -/

def Mid (dist : String) (P : Place) (free : List String) (d : Disk) : Prop :=
  Staged dist P d ∧ ∀ name ∈ free, d.get? (spot P name) = none

variable {free : List String} {d₀ : Disk} {x : Action Disk α}

theorem Mid.of_subset (h : Mid dist P free d) (hsub : free' ⊆ free) : Mid dist P free' d :=
  ⟨h.1, fun name hname => h.2 name (hsub hname)⟩

theorem Mid.pass (h : Mid dist P free d) (hpass : Pass dist P names d d')
    (hfree : ∀ name ∈ free, name ∉ names) : Mid dist P free d' :=
  ⟨(hpass h.1).1, fun name hname => hpass.free h.1 (hfree name hname) (h.2 name hname)⟩

theorem ensures_of_pass (hx : Moves (Pass dist P names) x) (hfree : ∀ name ∈ free, name ∉ names) :
    Ensures (Mid dist P free) x (fun _ => Mid dist P free) (Mid dist P free) :=
  .of_moves hx (fun _ _ h hpass => h.pass hpass hfree) fun _ h => h

theorem moves_pass_of_step (hx : Moves (Step dist P names) x)
    (hnames : stagingDir ∉ names) : Moves (Pass dist P names) x :=
  fun d => (hx d).pass hnames

theorem moves_pass_of_confined
    (hx : Moves (Confined (join dist stagingDir) (stage P)) x) : Moves (Pass dist P []) x :=
  fun d => Confined.pass (hx d)

theorem staging_not_mem : ∀ name ∈ artifacts, stagingDir ∉ [name] := by
  decide

theorem staging_not_mem_pair (hname : name ∈ artifacts) (htmp : name ++ ".tmp" ∈ passing) :
    stagingDir ∉ [name ++ ".tmp", name] := by
  have hstaging : stagingDir ∉ artifacts ∧ stagingDir ∉ passing := by decide
  intro h
  rcases List.mem_pair.1 h with h | h
  · exact hstaging.2 (h ▸ htmp)
  · exact hstaging.1 (h ▸ hname)

theorem ensures_removeFile (hname : name ∈ artifacts) :
    Ensures (fun d => d = d₀ ∧ Mid dist P free d) (Artifact.removeFile (join dist name))
      (fun _ => Mid dist P (name :: free)) (fun d => d = d₀ ∧ Mid dist P free d) := by
  rintro d ⟨rfl, hd⟩
  constructor
  · intro a d' hres
    rcases removeFile_cases hd.1.ready hname hres with ⟨-, f, hf⟩ | ⟨-, hnone, hready, hc⟩
    · cases hf
    · have hpass : Pass dist P [name] d d' :=
        Step.pass (fun _ => ⟨hready, hc⟩) (staging_not_mem name hname)
      refine ⟨(hpass hd.1).1, fun other hother => ?_⟩
      by_cases heq : other = name
      · exact heq ▸ hnone
      · exact hpass.free hd.1 (by simpa using heq)
          (hd.2 other ((List.mem_cons.1 hother).resolve_left heq))
  · intro f d' hres
    rcases removeFile_cases hd.1.ready hname hres with ⟨rfl, -⟩ | ⟨hr, -⟩
    · exact ⟨rfl, hd⟩
    · cases hr

variable {archive manifest : String}

theorem ensures_remove (hk : Kind archive manifest) :
    Ensures (fun d => d = d₀ ∧ Mid dist P free d)
      (Artifact.remove ⟨join dist archive, join dist manifest⟩)
      (fun _ => Mid dist P (manifest :: free))
      (fun d => (d = d₀ ∧ Mid dist P free d) ∨ Mid dist P (manifest :: free) d) := by
  refine Ensures.bind ((ensures_removeFile hk.manifest_mem).failing fun _ => .inl) fun _ => ?_
  intro d hd
  have hstart : d = d ∧ Mid dist P (manifest :: free) d := ⟨rfl, hd⟩
  obtain ⟨hok, herror⟩ := ensures_removeFile hk.archive_mem d hstart
  exact ⟨fun a t ht => (hok a t ht).of_subset (List.subset_cons_self _ _),
    fun f t ht => .inr (herror f t ht).2⟩

theorem ensures_finish [Gzip.Encoder] (hk : Kind archive manifest) (tree : String)
    (m : ArchiveManifest) (hmem : manifest ∈ free) (harchive : archive ∉ free)
    (hfree : ∀ name ∈ free, name ∉ passing) :
    Ensures (Mid dist P free)
      (finish tree ⟨join dist archive, join dist manifest⟩ m)
      (fun _ => Mid dist P (free.filter (· ≠ manifest))) (Mid dist P [manifest]) := by
  have hsub : [manifest] ⊆ free := by simpa using hmem
  have hmanifest := mem_used_of_artifacts hk.manifest_mem
  have hpath : Reaches dist P _ _ := reaches_join (mem_used_of_passing hk.manifest_tmp)
  have htext := withExtension_join_of_stem dist hmanifest (mem_used_of_passing hk.manifest_tmp)
    hk.stem
  have hpack : Moves (Pass dist P [archive ++ ".tmp", archive])
      (Archive.pack tree (join dist archive)) :=
    moves_pass_of_step (step_pack tree hk.archive_mem hk.archive_tmp)
      (staging_not_mem_pair hk.archive_mem hk.archive_tmp)
  have hstaging := staging_not_mem_pair hk.manifest_mem hk.manifest_tmp
  have hwrite : ∀ c, Moves (Pass dist P [manifest ++ ".tmp"])
      (OnDisk.change (·.writeFile (join dist (manifest ++ ".tmp")) c)) := fun c =>
    moves_pass_of_step (step_writeFile hpath hk.manifest_tmp c) fun h =>
      hstaging (List.mem_singleton.1 h ▸ List.mem_cons_self)
  have hrename : Moves (Pass dist P [manifest ++ ".tmp", manifest])
      (OnDisk.change (·.rename (join dist (manifest ++ ".tmp")) (join dist manifest))) :=
    moves_pass_of_step (step_rename hpath (reaches_join hmanifest) hk.manifest_tmp hk.manifest_mem)
      hstaging
  have hkept : ∀ name ∈ free, name ≠ manifest ++ ".tmp" := fun name hname heq =>
    hfree name hname (heq ▸ hk.manifest_tmp)
  have hfailed : ∀ d, Mid dist P free d → Mid dist P [manifest] d := fun d hd => hd.of_subset hsub
  refine Ensures.bind ((ensures_of_pass hpack fun name hname => ?_).failing hfailed) fun summary =>
    Ensures.bind ?_ fun _ => .pure fun _ h => h
  · intro h
    rcases List.mem_pair.1 h with rfl | rfl
    · exact hfree _ hname hk.archive_tmp
    · exact harchive hname
  rw [ArchiveManifest.store, Storage.writeDocument, htext]
  refine Ensures.bind ((ensures_of_pass (moves_pass_of_step (step_createParent hmanifest)
      List.not_mem_nil) fun _ _ => List.not_mem_nil).failing hfailed) fun _ => ?_
  refine Ensures.bind (((ensures_of_pass (hwrite _) fun name hname => ?_).within _).failing
    hfailed) fun _ => ?_
  · simpa using hkept name hname
  refine ((OnDisk.ensures_change fun d d' hd hd' => ?_).within _).failing hfailed
  have hpass := hrename d
  rw [OnDisk.result_change_of_ok hd'] at hpass
  refine (hd.of_subset (List.filter_subset_self _)).pass hpass fun name hname => ?_
  obtain ⟨hname, hne⟩ := List.mem_filter.1 hname
  simpa [hkept name hname] using hne

theorem ensures_report (e : Event) (hfree : Config.buildEvents ∉ free) :
    Ensures (fun w => Logged dist w ∧ Mid dist P free w.disk) (World.report e)
      (fun _ w => Logged dist w ∧ Mid dist P free w.disk) failed := by
  rintro w ⟨hlogged, hmid⟩
  refine ⟨fun a v hv => ?_, fun f v hv => ?_⟩
  · cases hv
    refine ⟨hlogged, hmid.pass ((step_reporting hlogged e).pass (by decide)) fun name hname => ?_⟩
    rintro hevents
    exact hfree (List.mem_singleton.1 hevents ▸ hname)
  · cases hv

theorem ensures_onDisk (h : Ensures pre x post failed) :
    Ensures (fun w => Logged dist w ∧ pre w.disk) (World.onDisk x)
      (fun a w => Logged dist w ∧ post a w.disk) (fun w => Logged dist w ∧ failed w.disk) :=
  World.ensures_onDisk h fun _ _ hlogged => hlogged

/-- A pass that fails has changed nothing, or the manifest of an artifact is gone. -/
def Broken (dist : String) (P : Place) (d₀ : Disk) (w : World) : Prop :=
  Logged dist w ∧ ((w.disk = d₀ ∧ Staged dist P w.disk) ∨
    Mid dist P [codeManifest] w.disk ∨ Mid dist P [depsManifest] w.disk)

theorem ensures_runIn [Gzip.Encoder] (root : String) (config : Config) (discovery : Discovery)
    (vendor : VendorManifest) (hagents : ∀ agent ∈ discovery.agents, IsName agent.name)
    (hfiles : ∀ p ∈ vendor.packageFiles, IsName p.2) :
    Ensures (fun w => Logged dist w ∧ w.disk = d₀ ∧ Mid dist P [] w.disk)
      (runIn root config discovery vendor dist (join dist stagingDir)) (fun _ _ => True)
      (Broken dist P d₀) := by
  have hcode : ∀ w : World, Logged dist w ∧ Mid dist P [depsManifest, codeManifest]
      w.disk → Broken dist P d₀ w := fun w hw => ⟨hw.1, .inr (.inl (hw.2.of_subset (by simp)))⟩
  have hdeps : ∀ w : World, Logged dist w ∧ Mid dist P [depsManifest] w.disk →
      Broken dist P d₀ w := fun w hw => ⟨hw.1, .inr (.inr hw.2)⟩
  -- the manifest of the code goes first
  refine Ensures.bind ((ensures_onDisk (ensures_remove kind_code)).failing ?_) fun _ => ?_
  · rintro w ⟨hw, ⟨hsame, hmid⟩ | hmid⟩
    · exact ⟨hw, .inl ⟨hsame, hmid.1⟩⟩
    · exact ⟨hw, .inr (.inl hmid)⟩
  have hremoveDeps : Ensures (Mid dist P [codeManifest])
      (Artifact.remove (Artifact.deps dist))
      (fun _ => Mid dist P [depsManifest, codeManifest])
      (Mid dist P [codeManifest]) := by
    intro d hd
    have hstart : d = d ∧ Mid dist P [codeManifest] d := ⟨rfl, hd⟩
    obtain ⟨hok, herror⟩ := ensures_remove kind_deps d hstart
    refine ⟨hok, fun f t ht => ?_⟩
    rcases herror f t ht with ⟨-, hmid⟩ | hmid
    · exact hmid
    · exact hmid.of_subset (by simp)
  refine Ensures.bind ((ensures_onDisk hremoveDeps).failing fun w hw =>
    ⟨hw.1, .inr (.inl hw.2)⟩) fun _ => ?_
  refine Ensures.bind ((ensures_onDisk (ensures_of_pass (moves_pass_of_confined
    (confined_buildCodeTree _ _ hagents)) fun _ _ => List.not_mem_nil)).failing hcode) fun _ => ?_
  refine Ensures.bind ((ensures_onDisk (ensures_of_pass (moves_pass_of_confined
    (confined_buildDepsTree _ _ hfiles)) fun _ _ => List.not_mem_nil)).failing hcode) fun _ => ?_
  -- the manifest of the code is there again when everything else of it is
  refine Ensures.bind ((ensures_onDisk (ensures_finish kind_code _ _ (by simp) (by decide)
    (by decide))).failing fun w hw => ⟨hw.1, .inr (.inl hw.2)⟩) fun codeManifest => ?_
  refine Ensures.bind (ensures_report _ (by decide)) fun _ => ?_
  refine Ensures.bind ((ensures_onDisk (ensures_finish kind_deps _ _ (by decide) (by decide)
    (by decide))).failing hdeps) fun depsManifest => ?_
  exact Ensures.bind (ensures_report _ (by decide)) fun _ => .pure fun _ _ => trivial

end AgentChain.Package
