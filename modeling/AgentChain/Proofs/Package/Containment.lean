import AgentChain.Proofs.Package.Success

/-!
# What packaging leaves alone

Packaging changes nothing outside of the directory of the artifacts, whether it succeeds or fails,
and whatever that directory held before. The dependency archive that it writes holds nothing but
files right below the directory of the packages. Both rest on the names of the package files: they
come from a vendor manifest and are joined to paths as they are.
-/

namespace AgentChain.Package

open AgentChain.Action Disk
open Bytes (ofText)
open AgentChain.Path (IsName under join)
open Artifact (depsArchive depsManifest codeArchive codeManifest)
open Gzip (Encoder LawfulEncoder)

variable {dist root name tree : String} {config : Config} {P R : Place} {d d' d₀ : Disk}
  {w w' : World} {discovery : Discovery} {vendor : VendorManifest} {names : List String}

/-! ### Archives of packages -/

/-- The bytes of an archive whose members all lie right below the directory of the packages. -/
def OnlyPackages (c : Bytes) : Prop :=
  ∃ members, Archive.membersOf (.file c) = ⟨members, false⟩ ∧
    ∀ m ∈ members, ∃ name, IsName name ∧ m.names? = some [ofText packagesDir, ofText name]

def ArchiveOf [Encoder] (files : List Collected) (P : Place) (name : String) (d : Disk) : Prop :=
  ∃ bytes entries d₁, (Archive.membersFor files).result d₁ = (.ok (bytes, entries), d₁) ∧
    d.get? (spot P name) = some (.file (Gzip.encode (bytes ++ Tar.ending)))

/-- An archive of what is collected from a tree stands at a name. -/
def Packed [Encoder] (tree : String) (P : Place) (name : String) (d₀ d : Disk) : Prop :=
  ∃ files, d₀.collect tree = .ok files ∧ ArchiveOf files P name d

/-- The directory of the artifacts is ready, and what stands at a name is as it was. -/
def Untouched (dist : String) (P : Place) (name : String) (d₀ d : Disk) : Prop :=
  Ready dist P d ∧ d.get? (spot P name) = d₀.get? (spot P name)

theorem Untouched.step (h : Untouched dist P name d₀ d)
    (hstep : Step dist P names d d') (hname : name ∉ names) : Untouched dist P name d₀ d' :=
  have ⟨hready, hc⟩ := hstep h.1
  ⟨hready, (hc.entry _ (by rwa [spots_iff])).trans h.2⟩

theorem ensures_collect {pre failed : Disk → Prop} (hfailed : ∀ d, pre d → failed d) :
    Ensures pre (OnDisk.collect tree) (fun files d => pre d ∧ d.collect tree = .ok files) failed := by
  intro d hd
  have hsame : d = ((OnDisk.collect tree).result d).2 :=
    Frame.within (OnDisk.moves_read frame_eq _) _ d
  refine ⟨fun files d' hres => ?_, fun f d' hres => ?_⟩
  · obtain ⟨hfiles, rfl⟩ := OnDisk.result_read_eq_ok.1 (result_within_eq_ok.1 hres)
    exact ⟨hd, hfiles⟩
  · rw [hres] at hsame
    obtain rfl : d = d' := hsame
    exact hfailed d hd

variable {path tmp out : String} {files : List Collected} {T : Place → Prop}
  {r : Except Failure Outcome}

theorem ensures_writeChecked [Encoder] (hpath : Reaches dist P path tmp) (htmp : tmp ∈ passing)
    (hname : name ∉ [tmp]) :
    Ensures (Untouched dist P name d₀) (Archive.writeChecked files path out)
      (fun _ d => Untouched dist P name d₀ d ∧ ArchiveOf files P tmp d)
      (Untouched dist P name d₀) := by
  intro d hd
  have hmoves := step_writeChecked hpath htmp files out
  refine ⟨fun entries d' hres => ?_, fun f d' hres => hd.step (hmoves.of_result hres) hname⟩
  obtain ⟨d₁, bytes, hempty, hmembers, hfull⟩ :=
    Archive.writeMembers_eq_ok (Archive.writeChecked_eq_ok hres).1
  have hready₁ := (hd.1.of_result (step_writeFile hpath htmp _) (OnDisk.result_change_of_ok hempty)).1
  exact ⟨hd.step (hmoves.of_result hres) hname, bytes, entries, d₁, hmembers,
    get?_of_writeFile hready₁ hpath htmp hfull⟩

theorem ensures_pack [Encoder] (tree : String) (hname : name ∈ artifacts)
    (htmp : name ++ ".tmp" ∈ passing) :
    Ensures (fun d => d = d₀ ∧ Ready dist P d) (Archive.pack tree (join dist name))
      (fun _ => Packed tree P name d₀)
      (fun d => d.get? (spot P name) = d₀.get? (spot P name) ∨ Packed tree P name d₀ d) := by
  have hused := mem_used_of_artifacts hname
  have hpath : Reaches dist P _ _ := reaches_withFileName hused (mem_used_of_passing htmp)
  have hother : name ∉ [name ++ ".tmp"] := fun h =>
    not_mem_passing name hname (List.mem_singleton.1 h ▸ htmp)
  refine Ensures.bind (ensures_collect fun d hd => .inl (hd.1 ▸ rfl)) fun files => ?_
  rintro d ⟨⟨rfl, hready⟩, hfiles⟩
  refine (?_ : Ensures (Untouched dist P name d) _ _ _) d ⟨hready, rfl⟩
  refine Ensures.bind (.of_moves (step_createParent hused)
    (fun _ _ hd hstep => hd.step hstep hother) fun _ hd => .inl hd.2) fun _ => ?_
  rw [Path.fileName?_join (isName_of_mem_used name hused)]
  refine Ensures.bind (ensures_writeChecked hpath htmp hother).attempt fun r => ?_
  cases r with
  | error f =>
    have hR := Step.frame dist P [name ++ ".tmp"]
    have hdiscard := hR.bind (Frame.attempt (step_removeFile hpath (mem_used_of_passing htmp)))
      fun _ => hR.pure ()
    exact Ensures.bind (.of_moves hdiscard (fun _ _ hd hstep => (hd.2 f rfl).step hstep hother)
      fun _ hd => .inl hd.2) fun _ => .fail fun _ hd => .inl hd.2
  | ok entries =>
    have hmove : ∀ d₁ d₂, Untouched dist P name d d₁ ∧ ArchiveOf files P (name ++ ".tmp") d₁ →
        d₁.rename (Path.withFileName (join dist name) (name ++ ".tmp")) (join dist name) =
          .ok d₂ → Packed tree P name d d₂ := by
      rintro d₁ d₂ ⟨⟨hready₁, -⟩, bytes, entries, d₃, hmembers, hentry⟩ hrename
      exact ⟨files, hfiles, bytes, entries, d₃, hmembers,
        (stored_of_rename hready₁ hpath htmp hname hentry hrename).entry⟩
    refine Ensures.bind (((OnDisk.ensures_change hmove).within _).imp
      (fun _ hd => hd.1 entries rfl) (fun _ _ hd => hd) fun _ hd => .inl hd.1.2) fun _ => ?_
    have hread : ∀ {α : Type} {x : Action Disk α}, Moves Eq x → Ensures (Packed tree P name d) x
        (fun _ => Packed tree P name d)
        (fun d' => d'.get? (spot P name) = d.get? (spot P name) ∨ Packed tree P name d d') :=
      fun hx => .of_moves hx (fun _ _ hd heq => heq ▸ hd) fun _ => .inr
    have hstill := OnDisk.closed_still (frame_eq (σ := Disk))
    exact Ensures.bind (hread (Archive.closed_sizeOf hstill _)) fun _ =>
      Ensures.bind (hread (Archive.closed_hashFile hstill _)) fun _ => .pure fun _ hd => hd

/-! ### The dependency tree -/

/-- Every file of the dependency tree is a package file. -/
def Tidy (P : Place) (d : Disk) : Prop :=
  ∀ q c, d.get? q = some (.file c) → stage P ++ [ofText "deps"] <+: q → IsPackage (stage P) q

theorem Tidy.changes (h : Tidy P d) (hc : Changes T d d')
    (hT : ∀ q, stage P ++ [ofText "deps"] <+: q → ¬ T q) : Tidy P d' :=
  fun q c hq hprefix => h q c ((hc.entry q (hT q hprefix)).symm.trans hq) hprefix

theorem Tidy.names_of_treeFiles (h : Tidy P d) (hstaged : Staged dist P d)
    (hfound : d.treeFiles (join (join dist stagingDir) "deps") = .ok found) :
    ∀ names ∈ found.map (·.1), LegiblePath names ∧
      ∃ name, IsName name ∧ names = [ofText packagesDir, ofText name] := by
  intro names hnames
  obtain ⟨⟨names, c⟩, hfile, rfl⟩ := List.mem_map.1 hnames
  obtain ⟨Q, e, hres, hget⟩ := hstaged.ready.sound.exists_get?_of_treeFiles hfound hfile
  rw [hstaged.of_resolve (by decide) hres] at hget
  obtain ⟨name, hname, heq⟩ := h _ c hget (List.prefix_append _ names)
  obtain rfl : names = [ofText packagesDir, ofText name] := by simpa using heq
  refine ⟨⟨by simp, fun n hn => ?_, fun n hn => ?_⟩, name, hname, rfl⟩
  · exact hstaged.ready.sound.proper _ (Option.ne_none_iff_exists'.2 ⟨_, hget⟩) n
      (List.mem_append_right _ hn)
  · rcases List.mem_pair.1 hn with rfl | rfl <;> exact Bytes.isText_ofText _

theorem onlyPackages_of_packed [Encoder] [LawfulEncoder] (h : Tidy P d₀)
    (hstaged : Staged dist P d₀) (hpacked : Packed (join (join dist stagingDir) "deps") P name d₀ d)
    :
    ∃ c, d.get? (spot P name) = some (.file c) ∧ OnlyPackages c := by
  obtain ⟨files, hcollect, bytes, entries, d₁, hmembers, hentry⟩ := hpacked
  obtain ⟨found, sorted, hfound, hperm, rfl, -⟩ := exists_treeFiles_of_collect hcollect
  have hnames := fun names hmem => h.names_of_treeFiles hstaged hfound names
    ((hperm.map (·.1)).mem_iff.1 hmem)
  obtain ⟨files, hfiles, -, harchived, -⟩ := Archive.exists_archived
    (fun file hfile => (hnames file.1 (List.mem_map_of_mem hfile)).1) hmembers
  rw [← hfiles] at hnames
  obtain ⟨members, hbrings, hread⟩ := Archive.exists_members_of_archived harchived
    fun file hfile => (hnames _ (List.mem_map_of_mem hfile)).1
  have hboth := (List.forall₂_and_left files members).2
    ⟨fun file hfile => (hnames _ (List.mem_map_of_mem hfile)).2, hbrings⟩
  have hnamed : List.Forall₂ (fun m file => (∃ name, IsName name ∧
      m.names? = some [ofText packagesDir, ofText name]) ∧ m.Brings file) members files := by
    refine List.Forall₂.flip (hboth.imp fun file m h => ?_)
    obtain ⟨⟨name, hname, heq⟩, hm⟩ := h
    exact ⟨⟨name, hname, heq ▸ hm.names?_eq⟩, hm⟩
  exact ⟨_, hentry, members, hread, ((List.forall₂_and_left members files).1 hnamed).1⟩

/-! ### A pass -/

/-- The dependency archive stands in its place, and holds package files only. -/
def HoldsPackages (P : Place) (d : Disk) : Prop :=
  ∃ c, d.get? (spot P depsArchive) = some (.file c) ∧ OnlyPackages c

theorem HoldsPackages.changes (h : HoldsPackages P d) (hc : Changes T d d')
    (hT : ¬ T (spot P depsArchive)) : HoldsPackages P d' := by
  rwa [HoldsPackages, hc.entry _ hT]

/-- The dependency archive is the one that was there, or missing, or it holds package files only. -/
def ArchiveKept (P : Place) (d d' : Disk) : Prop :=
  d'.get? (spot P depsArchive) = d.get? (spot P depsArchive) ∨
    d'.get? (spot P depsArchive) = none ∨ HoldsPackages P d'

theorem ArchiveKept.trans (h : ArchiveKept P d d') (h' : ArchiveKept P d' d'') :
    ArchiveKept P d d'' := by
  rcases h' with hsame | h'
  · rw [ArchiveKept, HoldsPackages, hsame]
    exact h
  · exact .inr h'

/-- Nothing changes outside of the directory of the artifacts, and the dependency archive is kept. -/
structure Contained (P : Place) (d d' : Disk) : Prop where
  changes : Changes (P <+: ·) d d'
  archive : ArchiveKept P d d'

theorem Contained.trans (h : Contained P d d') (h' : Contained P d' d'') : Contained P d d'' :=
  ⟨h.changes.trans h'.changes, h.archive.trans h'.archive⟩

theorem contained_of_changes (hc : Changes T d d') (hP : ∀ q, T q → P <+: q)
    (hT : ¬ T (spot P depsArchive)) : Contained P d d' :=
  ⟨hc.mono hP, .inl (hc.entry _ hT)⟩

theorem isPrefix_of_spots (h : Spots P names q) : P <+: q := by
  obtain ⟨name, -, rfl⟩ := h
  exact List.prefix_append _ _

theorem isPrefix_of_stage (h : stage P <+: q) : P <+: q :=
  (List.prefix_append P _).trans h

/-- What holds all along a pass: everything is contained in the directory of the artifacts, and trees
are laid out in the staging directory, the dependency tree with nothing but package files. -/
structure Kept (dist : String) (P : Place) (d₀ d : Disk) : Prop where
  contained : Contained P d₀ d
  staged : Staged dist P d
  tidy : Tidy P d

namespace Kept

variable {names : List String}

/-- A step of packaging that does not stage anything. -/
theorem step (h : Kept dist P d₀ d) (hstep : Step dist P names d d') (hstaging : stagingDir ∉ names)
    (harchive : ArchiveKept P d d') : Kept dist P d₀ d' where
  contained :=
    h.contained.trans ⟨(hstep h.staged.ready).2.mono fun _ => isPrefix_of_spots, harchive⟩
  staged := (hstep.pass hstaging h.staged).1
  tidy := by
    refine h.tidy.changes (hstep h.staged.ready).2 ?_
    rintro _ ⟨more, rfl⟩ ⟨name, -, heq⟩
    have hinside : inside (stage P) (spot P name) := by
      rw [← heq, List.append_assoc]
      exact inside_append (by simp)
    exact not_inside_spot hinside

theorem step_of_not_mem (h : Kept dist P d₀ d) (hstep : Step dist P names d d')
    (hstaging : stagingDir ∉ names) (hnames : depsArchive ∉ names) : Kept dist P d₀ d' :=
  h.step hstep hstaging (.inl ((hstep h.staged.ready).2.entry _ (by rwa [spots_iff])))

theorem confined (h : Kept dist P d₀ d)
    (hconfined : Confined (join dist stagingDir) (stage P) d d') (htidy : Tidy P d') :
    Kept dist P d₀ d' where
  contained := by
    refine h.contained.trans (contained_of_changes (hconfined h.staged.workplace).2 (fun q hq => ?_)
      not_inside_spot)
    obtain ⟨names, -, rfl⟩ := inside_iff.1 hq
    exact isPrefix_of_stage (List.prefix_append _ _)
  staged := (Confined.pass hconfined h.staged).1
  tidy := htidy

theorem ensures_of_step (hx : Moves (Step dist P names) x)
    (hstaging : stagingDir ∉ names) (hnames : depsArchive ∉ names) :
    Ensures (Kept dist P d₀) x (fun _ => Kept dist P d₀) (Kept dist P d₀) :=
  .of_moves hx (fun _ _ h hstep => h.step_of_not_mem hstep hstaging hnames) fun _ h => h

end Kept

theorem step_removeArtifact (hname : name ∈ artifacts) :
    Moves (Step dist P [name]) (Artifact.removeFile (join dist name)) := by
  intro d h
  rcases hres : (Artifact.removeFile (join dist name)).result d with ⟨r, d'⟩
  rcases removeFile_cases h hname hres with ⟨rfl, -⟩ | ⟨-, -, hready, hc⟩
  · exact ⟨h, .refl _ d'⟩
  · exact ⟨hready, hc⟩

theorem ensures_kept_removeCode :
    Ensures (Kept dist P d₀) (Artifact.code dist).remove (fun _ => Kept dist P d₀)
      (Kept dist P d₀) := by
  refine Ensures.bind (Kept.ensures_of_step (step_removeArtifact kind_code.manifest_mem) (by decide)
    (by decide)) fun _ => ?_
  exact Kept.ensures_of_step (step_removeArtifact kind_code.archive_mem) (by decide) (by decide)

theorem ensures_kept_removeDeps :
    Ensures (Kept dist P d₀) (Artifact.deps dist).remove (fun _ => Kept dist P d₀)
      (Kept dist P d₀) := by
  refine Ensures.bind (Kept.ensures_of_step (step_removeArtifact kind_deps.manifest_mem) (by decide)
    (by decide)) fun _ => ?_
  have hkept : ∀ {d r d'}, Kept dist P d₀ d →
      (Artifact.removeFile (join dist depsArchive)).result d = (r, d') →
      Kept dist P d₀ d' := by
    intro d r d' h hres
    refine h.step ((step_removeArtifact kind_deps.archive_mem).of_result hres) (by decide) ?_
    rcases removeFile_cases h.staged.ready kind_deps.archive_mem hres with ⟨rfl, -⟩ | ⟨-, hnone, -⟩
    · exact .inl rfl
    · exact .inr (.inl hnone)
  exact fun d hd => ⟨fun _ _ hres => hkept hd hres, fun _ _ hres => hkept hd hres⟩

theorem ensures_kept_buildCodeTree (runtimeDir : String)
    (hagents : ∀ agent ∈ discovery.agents, IsName agent.name) :
    Ensures (Kept dist P d₀) (buildCodeTree runtimeDir discovery
      (join (join dist stagingDir) "code")) (fun _ => Kept dist P d₀) (Kept dist P d₀) := by
  have hkept : ∀ {d r d'}, Kept dist P d₀ d → (buildCodeTree runtimeDir discovery
      (join (join dist stagingDir) "code")).result d = (r, d') → Kept dist P d₀ d' := by
    intro d r d' h hres
    refine h.confined ((confined_buildCodeTree runtimeDir discovery hagents).of_result hres) ?_
    refine h.tidy.changes (changes_buildCodeTree h.staged.workplace hagents hres) ?_
    rintro _ ⟨more, rfl⟩ ⟨more', heq⟩
    rw [List.append_assoc, List.append_assoc, List.append_cancel_left_eq] at heq
    exact absurd (List.cons.inj heq).1 (by decide)
  exact fun d hd => ⟨fun a d' hres => hkept hd hres, fun f d' hres => hkept hd hres⟩

theorem ensures_kept_buildDepsTree (vendorDir : String)
    (hfiles : ∀ p ∈ vendor.packageFiles, IsName p.2) :
    Ensures (Kept dist P d₀) (buildDepsTree vendorDir vendor
      (join (join dist stagingDir) "deps")) (fun _ => Kept dist P d₀) (Kept dist P d₀) := by
  refine .of_moves (laysPackages_buildDepsTree vendorDir vendor hfiles) (fun d d' h
    (hlays : LaysPackages (join dist stagingDir) (stage P) d d') => ?_) fun _ h => h
  refine h.confined hlays.confined fun q c hq hprefix => ?_
  exact ((hlays h.staged.workplace).2.2 q c hq).elim (fun ⟨c', hc'⟩ => h.tidy q c' hc' hprefix) id

theorem ensures_kept_packDeps [Encoder] [LawfulEncoder] :
    Ensures (Kept dist P d₀) (Archive.pack (join (join dist stagingDir) "deps")
        (join dist depsArchive))
      (fun _ d => Kept dist P d₀ d ∧ HoldsPackages P d) (Kept dist P d₀) := by
  intro d hd
  have hstep : ∀ {r d'}, (Archive.pack (join (join dist stagingDir) "deps")
      (join dist depsArchive)).result d = (r, d') → ArchiveKept P d d' →
      Kept dist P d₀ d' := fun hres =>
    hd.step ((step_pack _ kind_deps.archive_mem kind_deps.archive_tmp).of_result hres) (by decide)
  obtain ⟨hok, herror⟩ := ensures_pack (join (join dist stagingDir) "deps")
    kind_deps.archive_mem kind_deps.archive_tmp d ⟨rfl, hd.staged.ready⟩
  refine ⟨fun summary d' hres => ?_, fun f d' hres => ?_⟩
  · have hholds : HoldsPackages P d' := onlyPackages_of_packed hd.tidy hd.staged (hok _ _ hres)
    exact ⟨hstep hres (.inr (.inr hholds)), hholds⟩
  · exact hstep hres ((herror f d' hres).imp_right fun hpacked =>
      .inr (onlyPackages_of_packed hd.tidy hd.staged hpacked))

theorem ensures_reporting {kept failed : World → Prop} (h : ∀ w, kept w → kept (w.reporting e)) :
    Ensures kept (World.report e) (fun _ => kept) failed :=
  fun w hw => ⟨fun _ _ hres => (Prod.mk.inj hres).2 ▸ h w hw, fun _ _ hres => by cases hres⟩

/-- The pass goes on with a dependency archive that holds package files only. -/
def Done (dist : String) (P : Place) (d₀ d : Disk) : Prop :=
  Kept dist P d₀ d ∧ HoldsPackages P d

theorem Done.step (h : Done dist P d₀ d) (hstep : Step dist P names d d')
    (hstaging : stagingDir ∉ names) (hnames : depsArchive ∉ names) : Done dist P d₀ d' :=
  ⟨h.1.step_of_not_mem hstep hstaging hnames,
    h.2.changes (hstep h.1.staged.ready).2 (by rwa [spots_iff])⟩

theorem ensures_kept_finishDeps [Encoder] [LawfulEncoder] (m : ArchiveManifest) :
    Ensures (Kept dist P d₀)
      (finish (join (join dist stagingDir) "deps") (Artifact.deps dist) m)
      (fun _ => Done dist P d₀) (Kept dist P d₀) := by
  refine Ensures.bind ensures_kept_packDeps fun summary => Ensures.bind ?_ fun _ =>
    .pure fun _ hd => hd
  refine .of_moves (step_store kind_deps.manifest_mem kind_deps.manifest_tmp kind_deps.stem _)
    (fun d d' hd hstep => Done.step hd hstep (by decide) (by decide)) fun _ hd => hd.1

theorem ensures_kept_runIn [Encoder] [LawfulEncoder] (root : String) (config : Config)
    (hagents : ∀ agent ∈ discovery.agents, IsName agent.name)
    (hfiles : ∀ p ∈ vendor.packageFiles, IsName p.2) :
    Ensures (fun w => Logged dist w ∧ Kept dist P d₀ w.disk)
      (runIn root config discovery vendor dist (join dist stagingDir))
      (fun _ w => Logged dist w ∧ Done dist P d₀ w.disk)
      (fun w => Logged dist w ∧ Kept dist P d₀ w.disk) := by
  refine Ensures.bind (ensures_onDisk ensures_kept_removeCode) fun _ => ?_
  refine Ensures.bind (ensures_onDisk ensures_kept_removeDeps) fun _ => ?_
  refine Ensures.bind (ensures_onDisk (ensures_kept_buildCodeTree _ hagents)) fun _ => ?_
  refine Ensures.bind (ensures_onDisk (ensures_kept_buildDepsTree _ hfiles)) fun _ => ?_
  refine Ensures.bind (ensures_onDisk (Kept.ensures_of_step (step_finish kind_code _ _) (by decide)
    (by decide))) fun codeManifest => ?_
  refine Ensures.bind (ensures_reporting fun w hw => ?_) fun _ => ?_
  · exact ⟨hw.1, hw.2.step_of_not_mem (step_reporting hw.1 _) (by decide) (by decide)⟩
  refine Ensures.bind (ensures_onDisk (ensures_kept_finishDeps _)) fun depsManifest => ?_
  refine Ensures.bind (ensures_reporting fun w hw => ?_) fun _ => .pure fun _ hw => hw
  exact ⟨hw.1, hw.2.step (step_reporting hw.1 _) (by decide) (by decide)⟩

/-! ### Packaging -/

theorem contained_of_kept [Encoder] [LawfulEncoder] (hkept : Kept dist P d₀ w.disk)
    (hlogged : Logged dist w) (hagents : ∀ agent ∈ discovery.agents, IsName agent.name)
    (hfiles : ∀ p ∈ vendor.packageFiles, IsName p.2)
    (h : (staging root config discovery vendor dist).result w = (r, w')) :
    Contained P d₀ w'.disk ∧ ∀ o, r = .ok o → HoldsPackages P w'.disk := by
  rcases hrun : (runIn root config discovery vendor dist (join dist stagingDir)).result w with
    ⟨r₁, w₁⟩
  have hkept₁ : Kept dist P d₀ w₁.disk ∧ ∀ o, r₁ = .ok o → HoldsPackages P w₁.disk := by
    obtain ⟨hok, herror⟩ := ensures_kept_runIn root config hagents hfiles w ⟨hlogged, hkept⟩
    cases r₁ with
    | error f => exact ⟨(herror f w₁ hrun).2, by simp⟩
    | ok o => exact ⟨(hok o w₁ hrun).2.1, fun _ _ => (hok o w₁ hrun).2.2⟩
  obtain ⟨-, hc, -⟩ := unstaged_of_ready hkept₁.1.staged.ready
  have hspot : ¬ stage P <+: spot P depsArchive := not_below_stage_spot (by decide)
  rw [result_staging hrun] at h
  cases h
  exact ⟨hkept₁.1.contained.trans (contained_of_changes hc (fun _ => isPrefix_of_stage) hspot),
    fun o ho => (hkept₁.2 o ho).changes hc hspot⟩

theorem tidy_of_bare (h : d.Bare (stage P)) : Tidy P d := by
  rintro _ c hq ⟨more, rfl⟩
  rw [List.append_assoc, h _ (inside_append (by simp))] at hq
  cases hq

theorem contained_run [Encoder] [LawfulEncoder] (hd : w.disk.Sound)
    (hlogged : Logged (config.distDir root) w)
    (hproper : Name.Proper (ofText config.layout.distDir))
    (hP : P = R ++ [ofText config.layout.distDir]) (hroot : w.disk.LeadsTo (ofText root) R)
    (hlink : ∀ t, w.disk.get? P ≠ some (.symlink t))
    (hsettled : Settled w.disk (config.distDir root) P) (hfiles : FilesNamed root config w)
    (h : (run root config).result w = (r, w')) :
    Contained P w.disk w'.disk ∧ ∀ o, r = .ok o → HoldsPackages P w'.disk := by
  rw [run, result_bind] at h
  rcases hin : (inputs root config).result w with ⟨r₁, w₁⟩
  obtain ⟨hlogged₁, hearly⟩ := (early_inputs root config).of_result hin hlogged
  obtain ⟨hd₁, hgrows, hc₁⟩ := hearly hd hsettled
  have hcontained₁ : Contained P w.disk w₁.disk :=
    contained_of_changes hc₁ (fun _ => isPrefix_of_spots) (by rw [spots_iff]; decide)
  rw [hin] at h
  cases r₁ with
  | error f =>
    obtain ⟨rfl, rfl⟩ := Prod.mk.inj h
    exact ⟨hcontained₁, by simp⟩
  | ok read =>
    obtain ⟨discovery, vendor⟩ := read
    simp only at h
    rw [result_bind, World.onDisk, result_onPart] at h
    rcases hreset : (resetDirectory (join (config.distDir root) stagingDir)).result w₁.disk with
      ⟨r₂, d₂⟩
    obtain ⟨hstaged, hc₂⟩ := resetDirectory_of_root hd₁ (Path.isName_of_proper hproper) hproper hP
      (hroot.mono hgrows.keeps hgrows.home) (fun t ht => hlink t ((hgrows.link P t).1 ht))
      (hsettled.grows hgrows) hreset
    have hcontained₂ : Contained P w.disk d₂ := by
      refine hcontained₁.trans (contained_of_changes hc₂ (fun q hq => ?_) ?_)
      · exact hq.elim (fun hq => hq ▸ List.prefix_refl P) isPrefix_of_stage
      · exact not_or.2 ⟨by simp [spot], not_below_stage_spot (by decide)⟩
    rw [hreset] at h
    cases r₂ with
    | error f =>
      obtain ⟨rfl, rfl⟩ := Prod.mk.inj h
      exact ⟨hcontained₂, by simp⟩
    | ok u =>
      obtain ⟨hstaged₂, hbare⟩ := hstaged rfl
      have hkept : Kept (config.distDir root) P w.disk (w₁.on d₂).disk :=
        ⟨hcontained₂, hstaged₂, tidy_of_bare hbare⟩
      exact contained_of_kept hkept hlogged₁ (of_inputs hin).1 (hfiles _ _ _ hin) h

/-- Packaging creates, changes and removes nothing outside of the directory of the artifacts, whether
it succeeds or fails, and the dependency archive that it writes holds files right below the directory
of the packages only. The directory of the artifacts is named by one name and may be missing.

The package files must be named by single names, as they are in a manifest that vendoring wrote. The
path of the workspace may not lead through anything that packaging writes, and the files that are
written on the way may not be links or stand elsewhere too. -/
theorem contained_of_run [Encoder] [LawfulEncoder] (root : String) (config : Config) (w w' : World)
    (r : Except Failure Outcome) (R P : Place) (hd : w.disk.Sound)
    (hlogged : Logged (config.distDir root) w)
    (hproper : Name.Proper (ofText config.layout.distDir))
    (hP : P = R ++ [ofText config.layout.distDir])
    (hroot : (w.disk.apart (rewritten P)).LeadsTo (ofText root) R)
    (hlink : ∀ t, w.disk.get? P ≠ some (.symlink t))
    (hplain : ∀ name ∈ passing, w.disk.Plain (spot P name)) (hfiles : FilesNamed root config w)
    (h : (run root config).result w = (r, w')) :
    (∀ q, ¬ P <+: q → w'.disk.get? q = w.disk.get? q ∧ (q ∈ w'.disk.closed ↔ q ∈ w.disk.closed)) ∧
    ArchiveKept P w.disk w'.disk ∧ ∀ o, r = .ok o → HoldsPackages P w'.disk := by
  have hsettled : Settled w.disk (config.distDir root) P :=
    settled_of_root (Path.isName_of_proper hproper) hproper hP hroot hlink hplain
  obtain ⟨⟨hchanges, harchive⟩, hok⟩ :=
    contained_run hd hlogged hproper hP hroot.of_apart hlink hsettled hfiles h
  exact ⟨fun q hq => ⟨hchanges.entry q hq, hchanges.closed q, hchanges.still_closed q hq⟩,
    harchive, hok⟩

set_option maxRecDepth 100000 in
/-- What is packaged from a workspace with an agent and a package file stays in its place. -/
theorem contained_of_whole :
    ∃ o w', (run "/w" {}).result whole = (.ok o, w') ∧
      (∀ q, ¬ placeOf ["w", "dist"] <+: q → w'.disk.get? q = whole.disk.get? q ∧
        (q ∈ w'.disk.closed ↔ q ∈ whole.disk.closed)) ∧
      HoldsPackages (placeOf ["w", "dist"]) w'.disk := by
  have hroot : (whole.disk.apart (rewritten (placeOf ["w", "dist"]))).LeadsTo
      (ofText "/w") (placeOf ["w"]) :=
    walkLinks_eq_present_directory_iff.1 (by rfl)
  have hdir : whole.disk.get? (placeOf ["w", "dist"]) = some .directory := by decide +kernel
  have hrun : ((runDirectly "/w" {}).result whole).1.toOption.isSome := by decide +kernel
  obtain ⟨o, w', hres⟩ := exists_of_isSome hrun
  have h := result_run_of_directly legible_whole hres
  obtain ⟨hsame, -, hholds⟩ := contained_of_run "/w" {} whole w' (.ok o) (placeOf ["w"])
    (placeOf ["w", "dist"]) legible_whole.sound (by simp [Logged, whole, workspace]) (by decide) rfl
    hroot (by simp [hdir]) plain_whole (filesNamed_of_namesOk (by decide +kernel)) h
  exact ⟨o, w', h, hsame, hholds o rfl⟩

end AgentChain.Package
