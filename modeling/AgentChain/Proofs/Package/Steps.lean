import AgentChain.Proofs.Archive.Packing

/-!
# The files that packaging writes

Packaging writes and removes files by their names in the directory of the artifacts. Each step
changes what stands at these names and nothing else, as long as the path of the directory does not
lead through one of them and the files that are only written on the way are plain.
-/

namespace AgentChain.Package

open AgentChain.Action Disk
open Bytes (ofText)
open AgentChain.Path (IsName join)
open Artifact (codeArchive codeManifest depsArchive depsManifest)

variable {dist : String} {P : Place} {d d' : Disk} {path name : String}
  {names more : List String}

def artifacts : List String :=
  [codeArchive, codeManifest, depsArchive, depsManifest]

/-- The names of the files that are written on the way. -/
def passing : List String :=
  [codeArchive ++ ".tmp", codeManifest ++ ".tmp", depsArchive ++ ".tmp",
    depsManifest ++ ".tmp", Config.buildEvents]

/-- All names that packaging uses in the directory of the artifacts. -/
def used : List String :=
  stagingDir :: (artifacts ++ passing)

theorem isName_of_mem_used : ∀ name ∈ used, IsName name := by
  decide

theorem proper_of_mem_used : ∀ name ∈ used, Name.Proper (ofText name) := by
  decide

theorem not_mem_passing : ∀ name ∈ artifacts, name ∉ passing := by
  decide

theorem mem_used_of_artifacts (h : name ∈ artifacts) : name ∈ used := by
  simp [used, h]

theorem mem_used_of_passing (h : name ∈ passing) : name ∈ used := by
  simp [used, h]

/-- The place of a name in the directory of the artifacts. -/
def spot (P : Place) (name : String) : Place :=
  P ++ [ofText name]

@[simp] theorem spot_ne_nil : spot P name ≠ [] := by
  simp [spot]

@[simp] theorem spot_inj : spot P name = spot P other ↔ name = other := by
  constructor
  · intro h
    exact Bytes.ofText_injective (by simpa [spot] using h)
  · rintro rfl
    rfl

/-- The places that packaging writes or removes, and everything below them. -/
def rewritten (P : Place) (q : Place) : Bool :=
  used.any fun name => (spot P name).isPrefixOf q

theorem rewritten_spot (h : name ∈ used) : rewritten P (spot P name) := by
  rw [rewritten, List.any_eq_true]
  exact ⟨name, h, List.isPrefixOf_iff_prefix.2 (List.prefix_refl _)⟩

/-- A disk on which the path of the artifacts leads to their directory, but not through anything that
packaging writes, and on which the files that are written on the way are plain. -/
structure Ready (dist : String) (P : Place) (d : Disk) : Prop where
  sound : d.Sound
  leads : (d.apart (rewritten P)).LeadsTo (ofText dist) P
  plain : ∀ name ∈ passing, d.Plain (spot P name)

def Spots (P : Place) (names : List String) (q : Place) : Prop :=
  ∃ name ∈ names, q = spot P name

theorem spots_iff : Spots P names (spot P name) ↔ name ∈ names := by
  constructor
  · rintro ⟨other, hother, h⟩
    exact spot_inj.1 h ▸ hother
  · exact fun h => ⟨name, h, rfl⟩

/-- A disk stays ready, and nothing changes but what stands at some names. -/
def Step (dist : String) (P : Place) (names : List String) (d d' : Disk) : Prop :=
  Ready dist P d → Ready dist P d' ∧ Changes (Spots P names) d d'

theorem Step.frame (dist : String) (P : Place) (names : List String) : Frame (Step dist P names) :=
  .keeping ⟨.refl _, .trans⟩ _

theorem Step.mono (h : Step dist P names d d') (hsub : names ⊆ more) : Step dist P more d d' :=
  fun hd =>
    have ⟨hd', hc⟩ := h hd
    ⟨hd', hc.mono fun _ ⟨name, hname, hq⟩ => ⟨name, hsub hname, hq⟩⟩

theorem moves_mono (h : Moves (Step dist P names) x) (hsub : names ⊆ more) :
    Moves (Step dist P more) x :=
  fun d => (h d).mono hsub

namespace Ready

theorem leadsTo (h : Ready dist P d) : d.LeadsTo (ofText dist) P :=
  h.leads.of_apart

theorem aims (h : Ready dist P d) (hname : name ∈ used) : d.Aims (join dist name) P (ofText name) :=
  aims_join (proper_of_mem_used name hname) h.leadsTo

theorem of_changes (h : Ready dist P d) (hd' : d'.Sound) (hc : Changes (Spots P names) d d')
    (hused : ∀ name ∈ names, name ∈ used)
    (hplain : ∀ name ∈ names, name ∈ passing → d'.Plain (spot P name)) : Ready dist P d' where
  sound := hd'
  leads := hc.leadsTo (fun q ⟨name, hname, hq⟩ => hq ▸ rewritten_spot (hused name hname)) h.leads
  plain name hname := by
    by_cases hmem : name ∈ names
    · exact hplain name hmem hname
    · exact (h.plain name hname).changes hc (by rwa [spots_iff])

end Ready

/-! ### Single steps -/

/-- A path that leads to a name in the directory of the artifacts. -/
def Reaches (dist : String) (P : Place) (path name : String) : Prop :=
  ∀ d, Ready dist P d → d.Aims path P (ofText name)

theorem reaches_join (hname : name ∈ used) : Reaches dist P (join dist name) name :=
  fun _ h => h.aims hname

theorem step_fill (h : Ready dist P d) (hname : name ∈ passing)
    (hw : d.Vacant (spot P name) ∨ ∃ c', d.get? (spot P name) = some (.file c')) :
    Ready dist P (d.fill (spot P name) c) ∧ Changes (Spots P [name]) d (d.fill (spot P name) c) := by
  have hplain := h.plain name hname
  have hc : Changes (Spots P [name]) d (d.fill (spot P name) c) :=
    (changes_fill spot_ne_nil hplain.alone).mono fun q hq => ⟨name, by simp, hq⟩
  refine ⟨h.of_changes (h.sound.fill hw) hc ?_ ?_, hc⟩
  · simpa using mem_used_of_passing hname
  · intro other hother _
    rw [List.mem_singleton.1 hother]
    exact hplain.fill spot_ne_nil

theorem step_writeFile (hpath : Reaches dist P path name) (hname : name ∈ passing) (c : Bytes) :
    Moves (Step dist P [name]) (OnDisk.change (·.writeFile path c)) := by
  refine OnDisk.moves_change (Step.frame _ _ _) fun d d' hd h => ?_
  obtain ⟨p, hp, rfl⟩ := writeFile_eq_ok.1 hd
  obtain rfl := (hpath d h).writePlace_eq (h.plain name hname).link hp
  exact step_fill h hname (h.sound.of_writePlace hp)

theorem step_erase (h : Ready dist P d) (hname : name ∈ used)
    (hdir : d.get? (spot P name) ≠ some .directory) :
    Ready dist P (d.erase (spot P name)) ∧ Changes (Spots P [name]) d (d.erase (spot P name)) := by
  have hc : Changes (Spots P [name]) d (d.erase (spot P name)) :=
    changes_erase.mono fun q hq => ⟨name, by simp, hq⟩
  have hsound := h.sound.erase hdir
  refine ⟨h.of_changes hsound hc (by simpa using hname) fun other hother _ => ?_, hc⟩
  rw [List.mem_singleton.1 hother]
  exact hsound.plain_of_free (by simp [get?_erase])

theorem step_removeFile (hpath : Reaches dist P path name) (hname : name ∈ used) :
    Moves (Step dist P [name]) (OnDisk.change (·.removeFile path)) := by
  refine OnDisk.moves_change (Step.frame _ _ _) fun d d' hd h => ?_
  obtain ⟨e, hget, he, rfl⟩ := (hpath d h).removeFile_eq_ok hd
  refine step_erase h hname ?_
  rw [spot, hget]
  simpa using he

theorem step_rename
    (hsource : Reaches dist P sourcePath source) (htarget : Reaches dist P targetPath target)
    (hpassing : source ∈ passing) (hartifact : target ∈ artifacts) :
    Moves (Step dist P [source, target]) (OnDisk.change (·.rename sourcePath targetPath)) := by
  refine OnDisk.moves_change (Step.frame _ _ _) fun d d' hd h => ?_
  have hne : source ≠ target := fun heq => not_mem_passing target hartifact (heq ▸ hpassing)
  have halone := (h.plain source hpassing).alone
  have hsound := h.sound.rename hd
  obtain ⟨e, hget, he, rfl⟩ := (hsource d h).rename_eq_ok (htarget d h)
    (fun heq => hne (Bytes.ofText_injective heq)) halone hd
  have hc : Changes (Spots P [source, target]) d (d.move (spot P source) (spot P target) e) := by
    refine (changes_move spot_ne_nil spot_ne_nil).mono fun q hq => ?_
    rcases hq with rfl | rfl
    · exact ⟨target, by simp, rfl⟩
    · exact ⟨source, by simp, rfl⟩
  refine ⟨h.of_changes hsound hc ?_ ?_, hc⟩
  · simp [mem_used_of_passing hpassing, mem_used_of_artifacts hartifact]
  · intro other hother hmem
    rcases List.mem_pair.1 hother with rfl | rfl
    · refine hsound.plain_of_free ?_
      refine (get?_move spot_ne_nil spot_ne_nil (spot P _)).trans ?_
      rw [if_neg (by simpa using hne), if_pos rfl]
    · exact absurd hmem (not_mem_passing _ hartifact)

theorem step_createParent (hname : name ∈ used) :
    Moves (Step dist P names) (OnDisk.createParent (join dist name)) := by
  intro d h
  rw [OnDisk.result_createParent_of_leadsTo (isName_of_mem_used name hname) h.leadsTo]
  exact ⟨h, .refl _ d⟩

/-! ### Artifacts -/

theorem reaches_withFileName (hname : name ∈ used) (hother : other ∈ used) :
    Reaches dist P (Path.withFileName (join dist name) other) other := by
  intro d h
  obtain ⟨a, hparent, ha⟩ := h.leadsTo.exists_parent (isName_of_mem_used name hname)
  rw [Path.withFileName, Path.fileName?_join (isName_of_mem_used name hname), hparent]
  exact aims_join (proper_of_mem_used other hother) ha

theorem step_writeChecked [Gzip.Encoder] (hpath : Reaches dist P path name) (hname : name ∈ passing)
    (files : List Collected) (out : String) :
    Moves (Step dist P [name]) (Archive.writeChecked files path out) :=
  Archive.closed_writeChecked (OnDisk.closed_changes (Step.frame dist P [name])) trivial
    (step_writeFile hpath hname) files

theorem step_pack [Gzip.Encoder] (tree : String) (hname : name ∈ artifacts)
    (htmp : name ++ ".tmp" ∈ passing) :
    Moves (Step dist P [name ++ ".tmp", name]) (Archive.pack tree (join dist name)) := by
  have hR := Step.frame dist P [name ++ ".tmp", name]
  have hused := mem_used_of_artifacts hname
  have hpath : Reaches dist P _ _ := reaches_withFileName hused (mem_used_of_passing htmp)
  have hsub : [name ++ ".tmp"] ⊆ [name ++ ".tmp", name] := by simp
  refine Archive.closed_pack (OnDisk.closed_changes hR) trivial (step_createParent hused)
    (fun other hother => ?_) tree
  obtain rfl : name = other :=
    Option.some.inj ((Path.fileName?_join (isName_of_mem_used name hused)).symm.trans hother)
  exact ⟨fun c => moves_mono (step_writeFile hpath htmp c) hsub,
    moves_mono (step_removeFile hpath (mem_used_of_passing htmp)) hsub,
    step_rename hpath (reaches_join hused) htmp hname⟩

theorem withExtension_join_of_stem (dist : String) (hname : name ∈ used) (htmp : name ++ ".tmp" ∈ used)
    (hstem : Path.stem name ++ "." ++ "json.tmp" = name ++ ".tmp") :
    Path.withExtension (join dist name) "json.tmp" = join dist (name ++ ".tmp") := by
  rw [← hstem]
  exact Path.withExtension_join (isName_of_mem_used name hname) (hstem ▸ isName_of_mem_used _ htmp)

theorem step_store (hname : name ∈ artifacts) (htmp : name ++ ".tmp" ∈ passing)
    (hstem : Path.stem name ++ "." ++ "json.tmp" = name ++ ".tmp") (m : ArchiveManifest) :
    Moves (Step dist P [name ++ ".tmp", name]) (ArchiveManifest.store (join dist name) m) := by
  have hR := Step.frame dist P [name ++ ".tmp", name]
  have hused := mem_used_of_artifacts hname
  have htext := withExtension_join_of_stem dist hused (mem_used_of_passing htmp) hstem
  have hpath : Reaches dist P _ _ := reaches_join (mem_used_of_passing htmp)
  rw [ArchiveManifest.store, Storage.writeDocument, htext]
  refine hR.bind (step_createParent hused) fun _ => hR.bind ?_ fun _ => ?_
  · exact Frame.within (moves_mono (step_writeFile hpath htmp _) (by simp)) _
  · exact Frame.within (step_rename hpath (reaches_join hused) htmp hname) _

/-- The names of the two files of an artifact, with those of the files written on the way. -/
structure Kind (archive manifest : String) : Prop where
  archive_mem : archive ∈ artifacts
  manifest_mem : manifest ∈ artifacts
  archive_tmp : archive ++ ".tmp" ∈ passing
  manifest_tmp : manifest ++ ".tmp" ∈ passing
  stem : Path.stem manifest ++ "." ++ "json.tmp" = manifest ++ ".tmp"
  ne : archive ≠ manifest

theorem kind_code : Kind codeArchive codeManifest := by
  constructor <;> decide

theorem kind_deps : Kind depsArchive depsManifest := by
  constructor <;> decide

variable {archive manifest : String}

theorem step_finish [Gzip.Encoder] (hk : Kind archive manifest) (tree : String)
    (m : ArchiveManifest) :
    Moves (Step dist P [archive ++ ".tmp", archive, manifest ++ ".tmp", manifest])
      (finish tree ⟨join dist archive, join dist manifest⟩ m) := by
  have hR := Step.frame dist P [archive ++ ".tmp", archive, manifest ++ ".tmp", manifest]
  refine hR.bind (moves_mono (step_pack tree hk.archive_mem hk.archive_tmp) (by simp)) fun summary => ?_
  refine hR.bind (moves_mono (step_store hk.manifest_mem hk.manifest_tmp hk.stem _) (by simp)) fun _ => ?_
  exact hR.pure _

end AgentChain.Package
