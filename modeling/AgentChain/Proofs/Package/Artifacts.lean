import AgentChain.Proofs.Manifest
import AgentChain.Proofs.Package.Failure

/-!
# The artifacts that packaging makes

An archive is written beside its place and moved there, and then its manifest is. What the two files
hold afterwards is known exactly: the archive carries the files that the manifest lists, and the
manifest has the hash and the size of the archive. Such an artifact passes verification, and its
archive can be unpacked into a tree that the manifest accepts.
-/

namespace AgentChain.Package

open AgentChain.Action Disk OnDisk
open AgentChain.Path (join)
open Bytes (ofText)

variable {dist path name : String} {P : Place} {d d' : Disk} {c : Bytes}
  {names : List String}

theorem Ready.of_result (h : Ready dist P d)
    (hx : Moves (Step dist P names) x) (hres : x.result d = (r, d')) :
    Ready dist P d' ∧ Changes (Spots P names) d d' :=
  hx.of_result hres h

/-! ### Files in the directory of the artifacts -/

/-- A file stands at a name in the directory of the artifacts, and can be read there. -/
structure Stored (dist : String) (P : Place) (name : String) (c : Bytes) (d : Disk) : Prop where
  opened : P ∉ d.closed
  followable : Followable (ofText (join dist name))
  entry : d.get? (spot P name) = some (.file c)

namespace Stored

theorem changes (h : Stored dist P name c d) (hc : Changes T d d')
    (hT : ¬ T (spot P name)) : Stored dist P name c d' where
  opened hclosed := h.opened (hc.closed P hclosed)
  followable := h.followable
  entry := by rw [hc.entry _ hT, h.entry]

theorem readBytes (h : Stored dist P name c d) (hready : Ready dist P d) (hname : name ∈ used) :
    d.readBytes (join dist name) = .ok c := by
  have hpoints := (hready.aims hname).points h.followable
  have hentry : d.get? (P ++ [ofText name]) = some (.file c) := h.entry
  rw [readBytes_eq_ok, hpoints.resolve_true (fun t => by rw [hentry]; simp), lookup,
    if_neg h.opened, hentry]
  exact ⟨_, rfl⟩

end Stored

theorem get?_of_writeFile (h : Ready dist P d) (hpath : Reaches dist P path name)
    (hname : name ∈ passing) (hd' : d.writeFile path c = .ok d') :
    d'.get? (spot P name) = some (.file c) := by
  obtain ⟨p, hp, rfl⟩ := writeFile_eq_ok.1 hd'
  obtain rfl := (hpath d h).writePlace_eq (h.plain name hname).link hp
  exact (get?_fill spot_ne_nil).trans (if_pos rfl)

theorem stored_of_rename (h : Ready dist P d)
    (hpath : Reaches dist P path source) (hsource : source ∈ passing) (hname : name ∈ artifacts)
    (hentry : d.get? (spot P source) = some (.file c))
    (hd' : d.rename path (join dist name) = .ok d') : Stored dist P name c d' := by
  have hne : ofText source ≠ ofText name := by
    intro heq
    exact not_mem_passing name hname (Bytes.ofText_injective heq ▸ hsource)
  have haims := h.aims (mem_used_of_artifacts hname)
  obtain ⟨t, ht⟩ : ∃ t, d.resolve false (join dist name) = .ok t := by
    obtain ⟨-, -, -, -, ⟨p, e, hp, -⟩ | ⟨p, hp, -⟩⟩ := Disk.rename_eq_ok hd' <;> exact ⟨_, hp⟩
  obtain ⟨e, he, -, rfl⟩ := (hpath d h).rename_eq_ok haims hne (h.plain source hsource).alone hd'
  obtain rfl : e = .file c := Option.some.inj (he.symm.trans hentry)
  refine ⟨fun hclosed => haims.opened ht ?_, followable_of_resolve ht, ?_⟩
  · exact (changes_move spot_ne_nil spot_ne_nil).closed P hclosed
  · exact (get?_move spot_ne_nil spot_ne_nil _).trans (if_pos rfl)

/-! ### Archives and manifests -/

theorem stored_of_pack [Gzip.Encoder] (h : Ready dist P d) (htree : d.LegibleTree tree)
    (hname : name ∈ artifacts) (htmp : name ++ ".tmp" ∈ passing)
    (hpack : (Archive.pack tree (join dist name)).result d = (.ok summary, d')) :
    ∃ bytes files, Archive.Carries bytes files ∧ summary.files = files.map Verify.entryOf ∧
      Stored dist P name (Gzip.encode (bytes ++ Tar.ending)) d' ∧
      summary.sha256 = Sha256.hex (Gzip.encode (bytes ++ Tar.ending)) ∧
      summary.size = UInt64.ofNat (Gzip.encode (bytes ++ Tar.ending)).length := by
  have hused := mem_used_of_artifacts hname
  have hready' := (h.of_result (step_pack tree hname htmp) hpack).1
  obtain ⟨files, d₀, d₂, -, contents, hcollect, hparent, hwritten, -, -, hrename, hread, hsha, hsize⟩ :=
    Archive.pack_eq_ok hpack
  rw [← Archive.withFileName_eq (Path.fileName?_join (isName_of_mem_used name hused))] at hwritten hrename
  obtain ⟨d₁, bytes, hempty, hmembers, hfull⟩ := Archive.writeMembers_eq_ok hwritten
  obtain ⟨-, packed, -, -, hcarries, -, hpacked⟩ :=
    Archive.exists_carries h.sound htree hcollect hmembers
  have hpath : Reaches dist P (Path.withFileName (join dist name) (name ++ ".tmp")) _ :=
    reaches_withFileName hused (mem_used_of_passing htmp)
  have hcreate : Moves (Step dist P []) (createParent (join dist name)) := step_createParent hused
  have hready₀ := (h.of_result hcreate hparent).1
  have hready₁ := (hready₀.of_result (step_writeFile hpath htmp _) (result_change_of_ok hempty)).1
  have hready₂ := (hready₁.of_result (step_writeFile hpath htmp _) (result_change_of_ok hfull)).1
  have hstored := stored_of_rename hready₂ hpath htmp hname
    (get?_of_writeFile hready₁ hpath htmp hfull) hrename
  obtain rfl : Gzip.encode (bytes ++ Tar.ending) = contents :=
    Except.ok.inj ((hstored.readBytes hready' hused).symm.trans hread)
  exact ⟨bytes, packed, hcarries, hpacked, hstored, hsha, hsize⟩

theorem stored_of_store (h : Ready dist P d) (hname : name ∈ artifacts)
    (htmp : name ++ ".tmp" ∈ passing) (hstem : Path.stem name ++ "." ++ "json.tmp" = name ++ ".tmp")
    (hstore : (ArchiveManifest.store (join dist name) m).result d = (.ok u, d')) :
    Stored dist P name (ofText (m.toValue.pretty ++ "\n")) d' := by
  have hused := mem_used_of_artifacts hname
  have hpath : Reaches dist P _ _ := reaches_join (mem_used_of_passing htmp)
  rw [ArchiveManifest.store, Storage.writeDocument,
    withExtension_join_of_stem dist hused (mem_used_of_passing htmp) hstem] at hstore
  obtain ⟨⟨⟩, d₀, hparent, hstore⟩ := result_bind_eq_ok.1 hstore
  obtain ⟨⟨⟩, d₁, hwritten, hrename⟩ := result_bind_eq_ok.1 hstore
  have hfull := result_change_eq_ok.1 (result_within_eq_ok.1 hwritten)
  have hcreate : Moves (Step dist P []) (createParent (join dist name)) := step_createParent hused
  have hready₀ := (h.of_result hcreate hparent).1
  have hready₁ := (hready₀.of_result (step_writeFile hpath htmp _) (result_change_of_ok hfull)).1
  exact stored_of_rename hready₁ hpath htmp hname (get?_of_writeFile hready₀ hpath htmp hfull)
    (result_change_eq_ok.1 (result_within_eq_ok.1 hrename))

variable {archive manifest : String} {m : ArchiveManifest}

/-- An archive and its manifest stand in the directory of the artifacts: the archive carries the files
that the manifest lists, and the manifest has its hash and its size. -/
structure Made [Gzip.Encoder] (dist : String) (P : Place) (archive manifest : String)
    (m : ArchiveManifest) (d : Disk) : Prop where
  archived : ∃ bytes files, Archive.Carries bytes files ∧ m.files = files.map Verify.entryOf ∧
    m.archiveSha256 = Sha256.hex (Gzip.encode (bytes ++ Tar.ending)) ∧
    m.archiveSize = some (UInt64.ofNat (Gzip.encode (bytes ++ Tar.ending)).length) ∧
    Stored dist P archive (Gzip.encode (bytes ++ Tar.ending)) d
  described : Stored dist P manifest (ofText (m.toValue.pretty ++ "\n")) d
  ascending : ∀ files, m.packageFiles = some files → Json.Ascending files

theorem made_of_finish [Gzip.Encoder] (hk : Kind archive manifest) (h : Ready dist P d)
    (htree : d.LegibleTree tree)
    (hfiles : ∀ files, base.packageFiles = some files → Json.Ascending files)
    (hfinish : (finish tree ⟨join dist archive, join dist manifest⟩ base).result d = (.ok m, d')) :
    Made dist P archive manifest m d' := by
  obtain ⟨summary, d₁, hpack, hrest⟩ := result_bind_eq_ok.1 hfinish
  obtain ⟨⟨⟩, d₂, hstore, hrest⟩ := result_bind_eq_ok.1 hrest
  cases hrest
  have hready₁ := (h.of_result (step_pack tree hk.archive_mem hk.archive_tmp) hpack).1
  have hchanges :=
    (hready₁.of_result (step_store hk.manifest_mem hk.manifest_tmp hk.stem _) hstore).2
  have hkept : ¬ Spots P [manifest ++ ".tmp", manifest] (spot P archive) := by
    rw [spots_iff, List.mem_pair, not_or]
    exact ⟨fun heq => not_mem_passing archive hk.archive_mem (heq ▸ hk.manifest_tmp), hk.ne⟩
  obtain ⟨bytes, files, hcarries, hlisted, hstored, hsha, hsize⟩ :=
    stored_of_pack h htree hk.archive_mem hk.archive_tmp hpack
  exact ⟨⟨bytes, files, hcarries, hlisted, hsha, congrArg some hsize, hstored.changes hchanges hkept⟩,
    stored_of_store hready₁ hk.manifest_mem hk.manifest_tmp hk.stem hstore, hfiles⟩

namespace Made

theorem changes [Gzip.Encoder] (h : Made dist P archive manifest m d) (hc : Changes T d d')
    (harchive : ¬ T (spot P archive)) (hmanifest : ¬ T (spot P manifest)) :
    Made dist P archive manifest m d' where
  archived :=
    have ⟨bytes, files, hcarries, hfiles, hsha, hsize, hstored⟩ := h.archived
    ⟨bytes, files, hcarries, hfiles, hsha, hsize, hstored.changes hc harchive⟩
  described := h.described.changes hc hmanifest
  ascending := h.ascending

theorem authentic [Gzip.Encoder] (h : Made dist P archive manifest m d) (hready : Ready dist P d)
    (hk : Kind archive manifest) :
    Verify.Authentic d ⟨join dist archive, join dist manifest⟩ m := by
  obtain ⟨bytes, files, -, -, hsha, hsize, hstored⟩ := h.archived
  have hread := h.described.readBytes hready (mem_used_of_artifacts hk.manifest_mem)
  refine ⟨⟨_, readText_eq_ok.2 hread, m.parse?_toValue h.ascending⟩, ?_, _,
    hstored.readBytes hready (mem_used_of_artifacts hk.archive_mem), hsha, fun size heq => ?_⟩
  · rw [hsha, Sha256.isAllBlank_hex]
  · exact Option.some.inj (heq.symm.trans hsize)

theorem result_unpack [Gzip.Encoder] [Gzip.LawfulEncoder] (h : Made dist P archive manifest m d)
    (hready : Ready dist P d) (hk : Kind archive manifest) (hfresh : d.Fresh dest D)
    (hroom : ∀ e ∈ m.files, (ofText (join dest e.filename)).length < pathLimit) :
    ∃ d', (Archive.unpack (join dist archive) dest).result d = (.ok (), d') ∧
      (Verify.tree m dest).result d' = (.ok (), d') := by
  obtain ⟨bytes, files, hcarries, hfiles, -, -, hstored⟩ := h.archived
  exact Archive.result_tree_unpack hcarries hready.sound hfresh
    (hstored.readBytes hready (mem_used_of_artifacts hk.archive_mem)) hfiles hroom

end Made

end AgentChain.Package
