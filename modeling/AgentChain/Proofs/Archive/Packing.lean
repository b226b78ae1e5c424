import AgentChain.Proofs.Archive.Extract

/-!
# Packing trees

The regular files of a tree on a legible disk are packed under names from which they can be told
apart, and no file lies on the way of another one. The tar bytes and the description of the files
come from the same contents, so that the archive carries exactly the files that are described. What
was written can always be read again.
-/

namespace AgentChain

open AgentChain.Action

namespace Disk

variable {d : Disk} {tree : String}

theorem Sound.apart_of_files (hd : d.Sound)
    (ha : d.get? (P ++ a) = some (.file c)) (hb : d.get? (P ++ b) = some (.file c')) (hne : a ≠ b) :
    Apart a b := by
  -- A file on the way to another one would be a directory.
  have hnot : ∀ {a b : List Name} {c c' : Bytes}, d.get? (P ++ a) = some (.file c) →
      d.get? (P ++ b) = some (.file c') → a ≠ b → ¬ a <+: b := by
    rintro a _ c c' ha hb hne ⟨more, rfl⟩
    have hmore : more ≠ [] := by
      rintro rfl
      exact hne (List.append_nil a).symm
    rw [← List.append_assoc] at hb
    have hdir := hd.get?_of_append hmore (by rw [hb]; simp)
    rw [ha] at hdir
    cases hdir
  exact ⟨hnot ha hb hne, hnot hb ha hne.symm⟩

/-- The files of a legible tree: a single file, or files that can be told apart by their names as they
are shown. -/
theorem Sound.legiblePath_of_treeFiles (hd : d.Sound) (hlegible : d.LegibleTree tree)
    (h : d.treeFiles tree = .ok found) :
    (∃ c, found = [([], c)]) ∨
      (∀ file ∈ found, LegiblePath file.1) ∧ found.Pairwise fun a b => Apart a.1 b.1 := by
  rcases hd.treeFiles_cases h with hone | hnames
  · exact .inl hone
  refine .inr ⟨fun file hfile => ?_, ?_⟩
  · exact ⟨(hnames file hfile).1, (hnames file hfile).2, hlegible found h file hfile⟩
  have hnodup : found.Pairwise fun a b => a.1 ≠ b.1 := List.pairwise_map.1 (hd.nodup_treeFiles h)
  refine hnodup.imp_of_mem fun {a b} ha hb hne => ?_
  obtain ⟨P, e, hP, hget⟩ := hd.exists_get?_of_treeFiles h ha
  obtain ⟨P', e', hP', hget'⟩ := hd.exists_get?_of_treeFiles h hb
  obtain ⟨rfl, -⟩ : P = P' ∧ e = e' := by simpa using hP.symm.trans hP'
  exact hd.apart_of_files hget hget' hne

end Disk

namespace Archive

open Disk OnDisk

variable {d d' : Disk} {tree out : String} {bytes : Bytes} {entries : List FileEntry}
  {files : List Collected} {found packed : List (List Name × Bytes)} {path : String}

/-- The name beside an archive under which it is written first. -/
def temporary (out : String) : String :=
  Path.withFileName out ((Path.fileName? out).getD "" ++ ".tmp")

/-- The tar bytes of files, by their names as they are shown. -/
def tarBytes (files : List (List Name × Bytes)) : Bytes :=
  files.flatMap fun file => (Tar.writeMember? (shown file.1) file.2).getD []

theorem exists_archived {files : List (List Name × Bytes)} (hlegible : ∀ file ∈ files, LegiblePath file.1)
    (h : (membersFor (files.map (collected tree))).result d = (.ok (bytes, entries), d')) :
    ∃ packed : List (List Name × Bytes), packed.map (·.1) = files.map (·.1) ∧
      (∀ file ∈ packed, d.readBytes (collected tree file).path = .ok file.2) ∧
      Tar.Archived (packed.map fun file => (Bytes.ofText (shown file.1), file.2)) bytes ∧
      bytes = tarBytes packed ∧ entries = packed.map Verify.entryOf := by
  induction files generalizing bytes entries with
  | nil =>
    cases h
    exact ⟨[], rfl, by simp, .nil, rfl, rfl⟩
  | cons file files ih =>
    have hnames := hlegible file List.mem_cons_self
    rw [List.map_cons, membersFor] at h
    obtain ⟨contents, d₁, hbytes, hnext⟩ := result_bind_eq_ok.1 h
    obtain ⟨hread, rfl⟩ := result_read_eq_ok.1 (result_within_eq_ok.1 hbytes)
    split at hnext
    · cases hnext
    next member hmember =>
    obtain ⟨⟨rest, others⟩, d₂, hrest, hlast⟩ := result_bind_eq_ok.1 hnext
    cases hlast
    obtain ⟨packed, hpacked, hall, harchived, rfl, rfl⟩ :=
      ih (fun file hfile => hlegible file (List.mem_cons_of_mem _ hfile)) hrest
    refine ⟨(file.1, contents) :: packed, by simp [hpacked], ?_, ?_, ?_, rfl⟩
    · simpa using ⟨hread, fun names c => hall (names, c)⟩
    · obtain ⟨p, hp⟩ := readBytes_eq_ok.1 hread
      have hfollowable : Followable (Bytes.ofText (shown file.1)) :=
        hnames.followable_shown (followable_of_resolve hp)
      refine .cons (Tar.readAs_of_writeMember hmember hfollowable.no_zero ?_) harchived
      exact Nat.lt_trans (Nat.succ_lt_succ hfollowable.length_lt) (by decide)
    · have hmember : Tar.writeMember? (shown file.1) contents = some member := hmember
      simp [tarBytes, hmember]

/-- Files of a tree as they are packed: by their names, in ascending order of the names as they are
shown, with what is read of them. -/
structure PacksAs (d : Disk) (tree : String) (found packed : List (List Name × Bytes)) : Prop where
  names : (packed.map (·.1)).Perm (found.map (·.1))
  read : ∀ file ∈ packed, d.readBytes (collected tree file).path = .ok file.2
  ascending : packed.Pairwise fun a b => shown a.1 < shown b.1

theorem PacksAs.nodup (h : PacksAs d tree found packed) : packed.Nodup := by
  refine h.ascending.imp ?_
  rintro a _ hlt rfl
  exact Std.lt_irrefl hlt

theorem PacksAs.perm (h : PacksAs d tree found packed) (hfound : (found.map (·.1)).Nodup)
    (hkept : ∀ file ∈ found, ∀ c, d.readBytes (collected tree file).path = .ok c → c = file.2) :
    packed.Perm found := by
  have hsame : ∀ file ∈ packed, ∀ file' ∈ found, file.1 = file'.1 → file = file' := by
    rintro ⟨names, c⟩ hfile ⟨names', c'⟩ hfile' heq
    obtain rfl : names = names' := heq
    rw [hkept _ hfile' c (h.read _ hfile)]
  rw [List.perm_ext_iff_of_nodup h.nodup hfound.of_map]
  intro file
  constructor
  · intro hfile
    obtain ⟨file', hfile', heq⟩ := List.mem_map.1 (h.names.mem_iff.1 (List.mem_map_of_mem hfile))
    rwa [hsame file hfile file' hfile' heq.symm]
  · intro hfile
    obtain ⟨file', hfile', heq⟩ := List.mem_map.1 (h.names.mem_iff.2 (List.mem_map_of_mem hfile))
    rwa [← hsame file' hfile' file hfile heq]

theorem exists_carries (hd : d.Sound) (hlegible : d.LegibleTree tree)
    (hfiles : d.collect tree = .ok files) {d₁ : Disk}
    (h : (membersFor files).result d₁ = (.ok (bytes, entries), d')) :
    ∃ found packed, d.treeFiles tree = .ok found ∧ PacksAs d₁ tree found packed ∧
      Carries bytes packed ∧ bytes = tarBytes packed ∧ entries = packed.map Verify.entryOf := by
  obtain ⟨found, sorted, hfound, hperm, rfl, hascending⟩ := exists_treeFiles_of_collect hfiles
  obtain ⟨c, rfl⟩ | ⟨hpaths, hapart⟩ := hd.legiblePath_of_treeFiles hlegible hfound
  · -- A single file has no name in an archive.
    rw [List.perm_singleton.1 hperm, List.map_singleton, membersFor] at h
    obtain ⟨contents, d₂, -, h⟩ := result_bind_eq_ok.1 h
    have hnone : Tar.writeMember? (collected tree ([], c)).name contents = none := rfl
    rw [hnone] at h
    cases h
  · obtain ⟨packed, hpacked, hread, harchived, hbytes, hentries⟩ :=
      exists_archived (fun file hfile => hpaths file (hperm.mem_iff.1 hfile)) h
    have hlegible' : ∀ file ∈ packed, LegiblePath file.1 := by
      intro file hfile
      have hmem : file.1 ∈ sorted.map (·.1) := hpacked ▸ List.mem_map_of_mem hfile
      obtain ⟨file', hfile', heq⟩ := List.mem_map.1 hmem
      exact heq ▸ hpaths file' (hperm.mem_iff.1 hfile')
    have hapart' : (packed.map (·.1)).Pairwise Apart :=
      hpacked ▸ List.pairwise_map.2 ((hperm.pairwise_iff fun hab => hab.symm).2 hapart)
    have hascending' : (packed.map (·.1)).Pairwise fun a b => shown a ≤ shown b :=
      hpacked ▸ List.pairwise_map.2 hascending
    refine ⟨found, packed, hfound, ⟨hpacked ▸ hperm.map _, hread, ?_⟩,
      ⟨harchived, hlegible', List.pairwise_map.1 hapart'⟩, hbytes, hentries⟩
    refine ((List.pairwise_map.1 hapart').and (List.pairwise_map.1 hascending')).imp_of_mem ?_
    intro a b ha hb ⟨hab, hle⟩
    exact Std.lt_of_le_of_ne hle fun heq => hab.1
      ((hlegible' a ha).shown_injective (hlegible' b hb) heq ▸ List.prefix_rfl)

theorem writeMembers_eq_ok [Gzip.Encoder]
    (hwritten : (writeMembers files path).result d = (.ok entries, d')) :
    ∃ d₁ bytes, d.writeFile path [] = .ok d₁ ∧
      (membersFor files).result d₁ = (.ok (bytes, entries), d₁) ∧
      d₁.writeFile path (Gzip.encode (bytes ++ Tar.ending)) = .ok d' := by
  obtain ⟨⟨⟩, d₁, hempty, hrest⟩ := result_bind_eq_ok.1 hwritten
  obtain ⟨⟨bytes, entries'⟩, d₂, hmembers, hrest⟩ := result_bind_eq_ok.1 hrest
  obtain ⟨⟨⟩, d₃, hfull, hrest⟩ := result_bind_eq_ok.1 hrest
  cases hrest
  obtain rfl : d₁ = d₂ := (closed_membersFor (closed_still frame_eq) files).of_result hmembers
  exact ⟨d₁, bytes, result_change_eq_ok.1 (result_within_eq_ok.1 hempty), hmembers,
    result_change_eq_ok.1 (result_within_eq_ok.1 hfull)⟩

theorem writeChecked_eq_ok [Gzip.Encoder]
    (hchecked : (writeChecked files path out).result d = (.ok entries, d')) :
    (writeMembers files path).result d = (.ok entries, d') ∧
      ∃ n, n ≠ 0 ∧ (count path).result d' = (.ok n, d') := by
  obtain ⟨entries', d₁, hwritten, hrest⟩ := result_bind_eq_ok.1 hchecked
  obtain ⟨n, d₂, hcount, hrest⟩ := result_bind_eq_ok.1 hrest
  obtain rfl : d₁ = d₂ := (closed_count (closed_still frame_eq) path).of_result hcount
  split at hrest
  · cases hrest
  · next hn =>
    cases hrest
    exact ⟨hwritten, n, hn, hcount⟩

theorem sizeOf_hashFile_eq_ok (hsizeOf : (sizeOf path).result d = (.ok size, d₁))
    (hhashFile : (hashFile path).result d₁ = (.ok sha256, d')) :
    d' = d ∧ ∃ contents, d.readBytes path = .ok contents ∧ sha256 = Sha256.hex contents ∧
      size = UInt64.ofNat contents.length := by
  obtain ⟨opened, d₂, hopened, hsize⟩ := result_bind_eq_ok.1 hsizeOf
  obtain ⟨hopened, rfl⟩ := result_read_eq_ok.1 (result_within_eq_ok.1 hopened)
  cases hsize
  obtain ⟨opened', d₃, hopened', hhash⟩ := result_bind_eq_ok.1 hhashFile
  obtain ⟨hopened', rfl⟩ := result_read_eq_ok.1 (result_within_eq_ok.1 hopened')
  obtain ⟨contents, d₄, hcontents, hhash⟩ := result_bind_eq_ok.1 hhash
  cases hhash
  obtain rfl : opened = opened' := Except.ok.inj (hopened.symm.trans hopened')
  rw [result_within_eq_ok, result_ofFault] at hcontents
  cases opened with
  | directory => cases hcontents
  | file c =>
    cases hcontents
    refine ⟨rfl, contents, ?_, rfl, rfl⟩
    rw [Disk.readBytes, hopened]
    rfl

theorem withFileName_eq (h : Path.fileName? out = some name) :
    Path.withFileName out (name ++ ".tmp") = temporary out := by
  simp [temporary, h]

theorem pack_eq_ok [Gzip.Encoder] (hpack : (pack tree out).result d = (.ok summary, d')) :
    ∃ files d₀ d₁ n contents, d.collect tree = .ok files ∧
      (OnDisk.createParent out).result d = (.ok (), d₀) ∧
      (writeMembers files (temporary out)).result d₀ = (.ok summary.files, d₁) ∧
      n ≠ 0 ∧ (count (temporary out)).result d₁ = (.ok n, d₁) ∧
      d₁.rename (temporary out) out = .ok d' ∧
      d'.readBytes out = .ok contents ∧ summary.sha256 = Sha256.hex contents ∧
      summary.size = UInt64.ofNat contents.length := by
  obtain ⟨files, d₀, hcollect, h⟩ := result_bind_eq_ok.1 hpack
  obtain ⟨hcollect, rfl⟩ := result_read_eq_ok.1 (result_within_eq_ok.1 hcollect)
  obtain ⟨⟨⟩, d₀, hparent, h⟩ := result_bind_eq_ok.1 h
  split at h
  · cases h
  next name hname =>
  rw [withFileName_eq hname] at h
  obtain ⟨written, d₁, hwritten, h⟩ := result_bind_eq_ok.1 h
  split at h
  · obtain ⟨-, -, -, h⟩ := result_bind_eq_ok.1 h
    cases h
  next entries =>
  obtain ⟨hmembers, n, hn, hcount⟩ := writeChecked_eq_ok (of_result_attempt hwritten)
  obtain ⟨⟨⟩, d₃, hrename, h⟩ := result_bind_eq_ok.1 h
  obtain ⟨size, d₄, hsize, h⟩ := result_bind_eq_ok.1 h
  obtain ⟨sha256, d₅, hhash, h⟩ := result_bind_eq_ok.1 h
  cases h
  obtain ⟨rfl, contents, hread, hsha, hsize⟩ := sizeOf_hashFile_eq_ok hsize hhash
  exact ⟨files, d₀, d₁, n, contents, hcollect, hparent, hmembers, hn, hcount,
    result_change_eq_ok.1 (result_within_eq_ok.1 hrename), hread, hsha, hsize⟩

/-- The ways in which packing fails: before anything is written, while the archive is written, which is
then discarded, or once it is written. -/
inductive Unpacked [Gzip.Encoder] (d : Disk) (tree out : String) (f : Failure) : Disk → Prop
  | collect {d' : Disk} : (OnDisk.collect tree).result d = (.error f, d') → Unpacked d tree out f d'
  | parent {d' : Disk} : (OnDisk.createParent out).result d = (.error f, d') → Unpacked d tree out f d'
  | unnamed {d₀ : Disk} : (OnDisk.createParent out).result d = (.ok (), d₀) →
      f = .refusal (.unnamedArchive out) → Unpacked d tree out f d₀
  | write {files : List Collected} {d₀ d₁ d' : Disk} : d.collect tree = .ok files →
      (OnDisk.createParent out).result d = (.ok (), d₀) →
      (writeChecked files (temporary out) out).result d₀ = (.error f, d₁) →
      (discard (temporary out)).result d₁ = (.ok (), d') → Unpacked d tree out f d'
  | move {files : List Collected} {entries : List FileEntry} {d₀ d₁ d' : Disk} :
      (OnDisk.createParent out).result d = (.ok (), d₀) →
      (writeChecked files (temporary out) out).result d₀ = (.ok entries, d₁) →
      (do
        (OnDisk.change (·.rename (temporary out) out)).within (.on .renameInto out)
        let size ← sizeOf out
        let sha256 ← hashFile out
        return ({ sha256, size, files := entries } : Summary)).result d₁ = (.error f, d') →
      Unpacked d tree out f d'

theorem pack_eq_error [Gzip.Encoder] (hpack : (pack tree out).result d = (.error f, d')) :
    Unpacked d tree out f d' := by
  rcases result_bind_eq_error.1 hpack with h | ⟨files, d₀, hcollect, h⟩
  · exact .collect h
  obtain ⟨hcollect, rfl⟩ := result_read_eq_ok.1 (result_within_eq_ok.1 hcollect)
  rcases result_bind_eq_error.1 h with h | ⟨⟨⟩, d₁, hparent, h⟩
  · exact .parent h
  split at h
  · cases h
    exact .unnamed hparent rfl
  next name hname =>
  rw [withFileName_eq hname] at h
  obtain ⟨written, d₂, hwritten, h⟩ := (result_bind_eq_error.1 h).resolve_left nofun
  have hchecked := of_result_attempt hwritten
  split at h
  · obtain ⟨⟨⟩, d₃, hdiscard, h⟩ := (result_bind_eq_error.1 h).resolve_left nofun
    cases h
    exact .write hcollect hparent hchecked hdiscard
  · exact .move hparent hchecked h

theorem result_count_of_writeMembers [Gzip.Encoder] [Gzip.LawfulEncoder] (hd : d.Sound)
    (hlegible : d.LegibleTree tree) (hd₀ : d₀.Sound) (hfiles : d.collect tree = .ok files)
    (hwritten : (writeMembers files path).result d₀ = (.ok entries, d')) :
    (count path).result d' = (.ok entries.length, d') := by
  obtain ⟨d₁, bytes, hempty, hmembers, hfull⟩ := writeMembers_eq_ok hwritten
  obtain ⟨-, packed, -, -, hcarries, -, rfl⟩ := exists_carries hd hlegible hfiles hmembers
  rw [List.length_map]
  exact hcarries.result_count ((hd₀.writeFile hempty).readBytes_writeFile hfull)

/-! ### Packing by evaluation

Neither merge sort nor the reading of an archive can be evaluated by the kernel. What is packed
without them is packed with them too. -/

/-- The files of a tree, which must be found in ascending order. -/
def collectInOrder (tree : String) : Action Disk (List Collected) := do
  let found ← (OnDisk.read (·.treeFiles tree)).within (.on .walk tree)
  let files := found.map (collected tree)
  if files.Pairwise fun a b => a.name ≤ b.name then return files
  else .fail (.within (.on .walk tree) (.fault .malformed))

theorem result_collect_of_inOrder (hinOrder : (collectInOrder tree).result d = (.ok files, d')) :
    (OnDisk.collect tree).result d = (.ok files, d') := by
  obtain ⟨found, d₁, hread, hrest⟩ := result_bind_eq_ok.1 hinOrder
  obtain ⟨hfound, rfl⟩ := result_read_eq_ok.1 (result_within_eq_ok.1 hread)
  simp only at hrest
  split at hrest
  · next hsorted =>
    cases hrest
    refine result_within_eq_ok.2 (result_read_eq_ok.2 ⟨?_, rfl⟩)
    rw [collect_eq, hfound, Except.map, List.mergeSort_of_pairwise (by simpa using hsorted)]
  · cases hrest

/-- Pack a tree with its files in order, without reading the archive again. -/
def packDirectly [Gzip.Encoder] (tree out : String) : Action Disk Summary := do
  let files ← collectInOrder tree
  OnDisk.createParent out
  match Path.fileName? out with
  | none => .fail (.refusal (.unnamedArchive out))
  | some name =>
    let temporary := Path.withFileName out (name ++ ".tmp")
    let entries ← writeMembers files temporary
    if entries.isEmpty then .fail (.packaging (.emptyArchive out))
    else
      (OnDisk.change (·.rename temporary out)).within (.on .renameInto out)
      let size ← sizeOf out
      let sha256 ← hashFile out
      return { sha256, size, files := entries }

theorem result_pack_of_directly [Gzip.Encoder] [Gzip.LawfulEncoder] (hd : d.Legible)
    (hpacked : (packDirectly tree out).result d = (.ok summary, d')) :
    (pack tree out).result d = (.ok summary, d') := by
  obtain ⟨files, d₀, hinOrder, hrest⟩ := result_bind_eq_ok.1 hpacked
  have hcollect := result_collect_of_inOrder hinOrder
  obtain ⟨hfiles, rfl⟩ := result_read_eq_ok.1 (result_within_eq_ok.1 hcollect)
  obtain ⟨⟨⟩, d₁, hparent, hrest⟩ := result_bind_eq_ok.1 hrest
  rw [pack, result_bind_of_ok hcollect, result_bind_of_ok hparent]
  cases hname : Path.fileName? out with
  | none =>
    rw [hname] at hrest
    cases hrest
  | some name =>
    rw [hname] at hrest
    obtain ⟨entries, d₂, hwritten, hrest⟩ := result_bind_eq_ok.1 hrest
    by_cases hne : entries = []
    · simp [hne] at hrest
    have hd₁ := (closed_legible.createParent_text .createDirectory out).of_result hparent hd
    have hcount := result_count_of_writeMembers hd.sound (hd.tree tree) hd₁.sound hfiles hwritten
    have hchecked : (writeChecked files (Path.withFileName out (name ++ ".tmp")) out).result d₁ =
        (.ok entries, d₂) := by
      rw [writeChecked, result_bind_of_ok hwritten, result_bind_of_ok hcount,
        if_neg (by simpa using hne)]
      rfl
    simp only [List.isEmpty_iff, if_neg hne] at hrest
    simp only [result_bind, result_attempt, hchecked] at hrest ⊢
    exact hrest

end Archive

end AgentChain
