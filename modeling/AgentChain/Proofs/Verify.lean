import AgentChain.Proofs.FileTree.Legible
import AgentChain.Verify

/-!
# What verification accepts

An artifact is accepted exactly when its archive is the one that its manifest describes, and
everything else is a failure of integrity. The same holds for the comparison of a tree with the
files of a manifest. Verification changes nothing on the disk but the event logs.
-/

namespace AgentChain

open Bytes (ofText)
open AgentChain.Action
open Archive (describe)
open Except (mapError)

theorem Sha256.isAllBlank_hex (contents : Bytes) : Text.isAllBlank (hex contents) = false := by
  have hdigit : ∀ n < 16, Text.isBlank (Bytes.hexDigit n) = false := by decide
  obtain ⟨x, rest, hx⟩ : ∃ x rest, digest contents = x :: rest := ⟨_, _, rfl⟩
  rw [hex, hx, Text.isAllBlank, Bytes.hex, String.toList_ofList, List.flatMap_cons,
    List.cons_append, List.all_cons, hdigit (x.toNat / 16) (by have := x.toNat_lt; omega),
    Bool.false_and]

theorem Storage.result_readDocument (read : Document.Reader α) (path : String) (d : Disk) :
    (∃ text a, d.readText path = .ok text ∧ (Json.parse? text).bind read = some a ∧
        (Storage.readDocument read path).result d = (.ok a, d)) ∨
      ((∀ text, d.readText path = .ok text → (Json.parse? text).bind read = none) ∧
        ∃ f, (Storage.readDocument read path).result d = (.error f, d)) := by
  rw [readDocument, result_bind, OnDisk.readText, result_within, OnDisk.result_read]
  cases d.readText path with
  | error e => exact .inr ⟨by simp, _, rfl⟩
  | ok text =>
    cases ha : (Json.parse? text).bind read with
    | some a => exact .inl ⟨text, a, rfl, ha, by simp [ha, mapError]⟩
    | none =>
      exact .inr ⟨by simpa using ha, .within (.on .parse path) (.fault .malformed), by
        simp [ha, mapError]⟩

namespace Verify

variable {d : Disk} {a : Artifact} {m : ArchiveManifest} {expected actual : List FileEntry}
  {found : List (List Name × Bytes)}

/-- The archive of an artifact is the one that a manifest beside it describes. -/
structure Authentic (d : Disk) (a : Artifact) (m : ArchiveManifest) : Prop where
  described : ∃ text, d.readText a.manifest = .ok text ∧
    (Json.parse? text).bind ArchiveManifest.ofDocument? = some m
  hashed : Text.isAllBlank m.archiveSha256 = false
  held : ∃ contents, d.readBytes a.archive = .ok contents ∧
    m.archiveSha256 = Sha256.hex contents ∧
    ∀ size, m.archiveSize = some size → size = UInt64.ofNat contents.length

theorem Authentic.eq_of_parse (h : Authentic d a m') (htext : d.readText a.manifest = .ok text)
    (hm : (Json.parse? text).bind ArchiveManifest.ofDocument? = some m) : m' = m := by
  obtain ⟨text', htext', hparse⟩ := h.described
  obtain rfl := Except.ok.inj (htext.symm.trans htext')
  exact Option.some.inj (hparse.symm.trans hm)

theorem Authentic.unique (h : Authentic d a m) (h' : Authentic d a m') : m' = m := by
  obtain ⟨text, htext, hparse⟩ := h.described
  exact h'.eq_of_parse htext hparse

theorem result_asIntegrity (f : String → IntegrityFailure) (x : Action Disk α) (d : Disk) :
    (asIntegrity f x).result d =
      ((x.result d).1.mapError fun e => .integrity (f e.message), (x.result d).2) := by
  rw [asIntegrity, result_bind, result_attempt]
  rcases x.result d with ⟨e | b, t⟩ <;> rfl

theorem result_sizeOf (h : d.readBytes path = .ok contents) :
    (Archive.sizeOf path).result d = (.ok (UInt64.ofNat contents.length), d) := by
  rw [Archive.sizeOf, result_bind, result_within, OnDisk.result_read, Disk.openFile_of_readBytes h]
  rfl

theorem result_hashFile (h : d.readBytes path = .ok contents) :
    (Archive.hashFile path).result d = (.ok (Sha256.hex contents), d) := by
  rw [Archive.hashFile, result_bind, result_within, OnDisk.result_read,
    Disk.openFile_of_readBytes h]
  rfl

/-- An artifact is accepted exactly when its archive is the one that its manifest describes, and
otherwise the failure is one of integrity. -/
theorem artifact_cases (a : Artifact) (d : Disk) :
    (∃ m, Authentic d a m ∧ (artifact a).result d = (.ok m, d)) ∨
      ((∀ m, ¬ Authentic d a m) ∧ ∃ i, (artifact a).result d = (.error (.integrity i), d)) := by
  rw [artifact, result_bind, OnDisk.result_look]
  by_cases hmanifest : d.isFile a.manifest
  swap
  · refine .inr ⟨fun m hm => hmanifest ?_, .missing .manifest a.manifest, by simp [hmanifest]⟩
    obtain ⟨text, htext, -⟩ := hm.described
    exact Disk.isFile_iff.2 ⟨_, Disk.readText_eq_ok.1 htext⟩
  simp only [hmanifest, Bool.not_true, Bool.false_eq_true, if_false]
  rw [result_bind, OnDisk.result_look]
  by_cases harchive : d.isFile a.archive
  swap
  · refine .inr ⟨fun m hm => harchive ?_, .missing .archive a.archive, by simp [harchive]⟩
    obtain ⟨contents, hcontents, -⟩ := hm.held
    exact Disk.isFile_iff.2 ⟨_, hcontents⟩
  simp only [harchive, Bool.not_true, Bool.false_eq_true, if_false]
  obtain ⟨contents, hcontents⟩ := Disk.isFile_iff.1 harchive
  rw [result_bind, result_asIntegrity]
  rcases Storage.result_readDocument ArchiveManifest.ofDocument? a.manifest d with
    ⟨text, m, htext, hm, hload⟩ | ⟨hnone, f, hload⟩
  swap
  · refine .inr ⟨fun m hm => ?_, .invalidManifest a.manifest f.message, ?_⟩
    · obtain ⟨text, htext, hparse⟩ := hm.described
      rw [hnone text htext] at hparse
      cases hparse
    · rw [ArchiveManifest.load, hload]
      rfl
  have honly : ∀ m', Authentic d a m' → m' = m := fun m' hm' => hm'.eq_of_parse htext hm
  rw [ArchiveManifest.load, hload]
  simp only [mapError]
  by_cases hblank : Text.isAllBlank m.archiveSha256
  · refine .inr ⟨fun m' hm' => ?_, .noExpectedHash a.manifest, by simp [hblank]⟩
    have := hm'.hashed
    rw [honly m' hm', hblank] at this
    cases this
  simp only [hblank, Bool.false_eq_true, if_false]
  rw [result_bind, result_asIntegrity, result_sizeOf hcontents]
  simp only [mapError]
  cases hsize : m.archiveSize.filter (· ≠ UInt64.ofNat contents.length) with
  | some expected =>
    refine .inr ⟨fun m' hm' => ?_, .sizeMismatch a.archive expected (UInt64.ofNat contents.length), rfl⟩
    obtain ⟨contents', hcontents', -, hsize'⟩ := hm'.held
    rw [hcontents] at hcontents'
    cases hcontents'
    obtain ⟨hexpected, hne⟩ := Option.filter_eq_some_iff.1 hsize
    rw [honly m' hm'] at hsize'
    simp [hsize' expected hexpected] at hne
  | none =>
    simp only
    rw [result_bind, result_asIntegrity, result_hashFile hcontents]
    simp only [mapError]
    by_cases hhash : Sha256.hex contents = m.archiveSha256
    · refine .inl ⟨m, ⟨⟨text, htext, hm⟩, by simpa using hblank, contents, hcontents, hhash.symm, ?_⟩, ?_⟩
      · intro size hs
        simpa [hs] using hsize
      · rw [if_pos hhash]
        rfl
    · refine .inr ⟨fun m' hm' => ?_, .hashMismatch a.archive m.archiveSha256 (Sha256.hex contents), ?_⟩
      · obtain ⟨contents', hcontents', hhash', -⟩ := hm'.held
        rw [hcontents] at hcontents'
        cases hcontents'
        exact hhash (honly m' hm' ▸ hhash'.symm)
      · rw [if_neg hhash]
        rfl

theorem reporting_cases (a : Artifact) (w : World) :
    (∃ m, Authentic w.disk a m ∧
        (reporting a).result w = (.ok m, w.reporting (acceptedEvent a m))) ∨
      ((∀ m, ¬ Authentic w.disk a m) ∧ ∃ i, (reporting a).result w =
        (.error (.integrity i), w.reporting (rejectedEvent a (.integrity i)))) := by
  rw [reporting, result_bind, result_attempt, World.onDisk, result_onPart]
  rcases artifact_cases a w.disk with ⟨m, hm, hres⟩ | ⟨hnone, i, hres⟩
  · refine .inl ⟨m, hm, ?_⟩
    rw [hres]
    rfl
  · refine .inr ⟨hnone, i, ?_⟩
    rw [hres]
    rfl

theorem dist_cases (directory : String) (w : World) :
    (∃ code deps, Authentic w.disk (Artifact.code directory) code ∧
        Authentic (w.reporting (acceptedEvent (Artifact.code directory) code)).disk
          (Artifact.deps directory) deps ∧
        (dist directory).result w =
          (.ok { code, deps }, (w.reporting (acceptedEvent (Artifact.code directory) code)).reporting
            (acceptedEvent (Artifact.deps directory) deps))) ∨
      (∃ code i, Authentic w.disk (Artifact.code directory) code ∧
        (∀ deps, ¬ Authentic (w.reporting (acceptedEvent (Artifact.code directory) code)).disk
          (Artifact.deps directory) deps) ∧
        (dist directory).result w = (.error (.integrity i),
          (w.reporting (acceptedEvent (Artifact.code directory) code)).reporting
            (rejectedEvent (Artifact.deps directory) (.integrity i)))) ∨
      ((∀ code, ¬ Authentic w.disk (Artifact.code directory) code) ∧
        ∃ i, (dist directory).result w = (.error (.integrity i),
          w.reporting (rejectedEvent (Artifact.code directory) (.integrity i)))) := by
  rw [dist, result_bind]
  rcases reporting_cases (Artifact.code directory) w with ⟨code, hcode, hres⟩ | ⟨hnone, i, hres⟩
  · rw [hres]
    simp only
    rw [result_bind]
    rcases reporting_cases (Artifact.deps directory)
        (w.reporting (acceptedEvent (Artifact.code directory) code)) with
      ⟨deps, hdeps, hres'⟩ | ⟨hnone, i, hres'⟩
    · rw [hres']
      exact .inl ⟨code, deps, hcode, hdeps, rfl⟩
    · rw [hres']
      exact .inr (.inl ⟨code, i, hcode, hnone, rfl⟩)
  · rw [hres]
    exact .inr (.inr ⟨hnone, i, rfl⟩)

/-! ### Trees -/

theorem result_describeFiles (files : List Disk.Collected) (d : Disk) :
    ((∀ f ∈ files, ∃ c, d.readBytes f.path = .ok c) ∧
        (Archive.describeFiles files).result d =
          (.ok (files.map fun f => Archive.entryOf f.name (d.contentsOf f.path)), d)) ∨
      ((∃ f ∈ files, ∀ c, d.readBytes f.path ≠ .ok c) ∧
        ∃ e, (Archive.describeFiles files).result d = (.error e, d)) := by
  induction files with
  | nil => exact .inl ⟨by simp, rfl⟩
  | cons file rest ih =>
    rw [Archive.describeFiles]
    cases hread : d.readBytes file.path with
    | ok c =>
      rw [result_bind_of_ok (result_sizeOf hread), result_bind_of_ok (result_hashFile hread),
        result_bind]
      rcases ih with ⟨hall, hres⟩ | ⟨⟨f, hf, hnone⟩, e, hres⟩
      · refine .inl ⟨fun f hf => ?_, ?_⟩
        · rcases List.mem_cons.1 hf with rfl | hf
          · exact ⟨c, hread⟩
          · exact hall f hf
        · rw [hres, List.map_cons, Disk.contentsOf_eq hread]
          rfl
      · refine .inr ⟨⟨f, List.mem_cons_of_mem _ hf, hnone⟩, e, ?_⟩
        rw [hres]
    | error fault =>
      refine .inr ⟨⟨file, List.mem_cons_self, by simp [hread]⟩, ?_⟩
      rw [result_bind, Archive.sizeOf, result_bind, result_within, OnDisk.result_read]
      cases hopen : d.openFile file.path with
      | error e => exact ⟨_, rfl⟩
      | ok opened =>
        simp only [mapError]
        rw [result_pure]
        simp only
        rw [result_bind, Archive.hashFile, result_bind, result_within, OnDisk.result_read, hopen]
        simp only [mapError]
        rw [result_bind, result_within, result_ofFault]
        rw [Disk.readBytes, hopen] at hread
        simp only at hread
        rw [hread]
        exact ⟨_, rfl⟩

theorem compare_eq_ok_iff : compare expected actual = .ok () ↔ (expected.map (·.filename)).Nodup ∧
      (∀ e ∈ expected, (actual.find? fun f => f.filename == e.filename) = some e) ∧
      ∀ f ∈ actual, f.filename ∈ expected.map (·.filename) := by
  induction expected generalizing actual with
  | nil =>
    cases actual with
    | nil => simp [compare]
    | cons f actual =>
      simp only [compare, reduceCtorEq, false_iff]
      rintro ⟨-, -, hall⟩
      simpa using hall f List.mem_cons_self
  | cons e rest ih =>
    rw [compare]
    cases hfind : actual.find? fun f => f.filename == e.filename with
    | none =>
      simp only [reduceCtorEq, false_iff]
      rintro ⟨-, hheld, -⟩
      simp [hheld e List.mem_cons_self] at hfind
    | some found =>
      have hname : found.filename = e.filename := by simpa using List.find?_some hfind
      by_cases heq : found = e
      · subst heq
        simp only [ne_eq, not_true_eq_false, if_false]
        have hkept : ∀ name, name ≠ found.filename →
            ((actual.filter fun f => f.filename ≠ found.filename).find? fun f => f.filename == name) =
              actual.find? fun f => f.filename == name := by
          intro name hne
          rw [List.find?_filter]
          congr 1
          funext f
          by_cases hf : f.filename = name
          · simp [hf, hne]
          · simp [hf]
        rw [ih, List.map_cons, List.nodup_cons]
        constructor
        · rintro ⟨hnodup, hheld, hlisted⟩
          have hnot : found.filename ∉ rest.map (·.filename) := by
            rintro hmem
            obtain ⟨e', he', hsame⟩ := List.mem_map.1 hmem
            have := (List.mem_filter.1 (List.mem_of_find?_eq_some (hheld e' he'))).2
            simp [hsame] at this
          refine ⟨⟨hnot, hnodup⟩, fun e' he' => ?_, fun f hf => ?_⟩
          · rcases List.mem_cons.1 he' with rfl | he'
            · exact hfind
            · rw [← hkept _ fun h => hnot (h ▸ List.mem_map_of_mem he')]
              exact hheld e' he'
          · by_cases hsame : f.filename = found.filename
            · exact hsame ▸ List.mem_cons_self
            · exact List.mem_cons_of_mem _ (hlisted f (List.mem_filter.2 ⟨hf, by simpa using hsame⟩))
        · rintro ⟨⟨hnot, hnodup⟩, hheld, hlisted⟩
          refine ⟨hnodup, fun e' he' => ?_, fun f hf => ?_⟩
          · rw [hkept _ fun h => hnot (h ▸ List.mem_map_of_mem he')]
            exact hheld e' (List.mem_cons_of_mem _ he')
          · obtain ⟨hf, hne⟩ := List.mem_filter.1 hf
            exact (List.mem_cons.1 (hlisted f hf)).resolve_left (by simpa using hne)
      · refine iff_of_false ?_ fun ⟨_, hheld, _⟩ =>
          heq (Option.some.inj (hfind.symm.trans (hheld e List.mem_cons_self)))
        simp only
        split
        · nofun
        split
        · nofun
        · next hsize hhash =>
          refine absurd ?_ heq
          cases found
          cases e
          simp_all

def entryOf (file : List Name × Bytes) : FileEntry :=
  Archive.entryOf (Disk.shown file.1) file.2

/-- The files of a tree are the files of a manifest: each is listed once, by its name as it is shown,
with its size and its hash. -/
structure Lists (files : List FileEntry) (found : List (List Name × Bytes)) : Prop where
  nodup : (files.map (·.filename)).Nodup
  held : ∀ e ∈ files, ∃ file ∈ found, entryOf file = e
  listed : ∀ file ∈ found, Disk.shown file.1 ∈ files.map (·.filename)

/-- Lists without two entries for one file are permutations of each other if the first has nothing
more than the second, and a file for each of its files. -/
theorem perm_of_filenames
    (hexpected : (expected.map (·.filename)).Nodup) (hactual : (actual.map (·.filename)).Nodup)
    (hheld : ∀ e ∈ expected, e ∈ actual)
    (hlisted : ∀ f ∈ actual, f.filename ∈ expected.map (·.filename)) : expected.Perm actual := by
  rw [List.perm_ext_iff_of_nodup hexpected.of_map hactual.of_map]
  refine fun f => ⟨hheld f, fun hf => ?_⟩
  obtain ⟨e, he, hname⟩ := List.mem_map.1 (hlisted f hf)
  rwa [← List.inj_on_of_nodup_map hactual (hheld e he) hf hname]

theorem Lists.perm
    (h : Lists files found) (hshown : (found.map fun file => Disk.shown file.1).Nodup) :
    files.Perm (found.map entryOf) := by
  refine perm_of_filenames h.nodup (by rwa [List.map_map]) (fun e he => List.mem_map.2 (h.held e he)) ?_
  intro e he
  obtain ⟨file, hfile, rfl⟩ := List.mem_map.1 he
  exact h.listed file hfile

/-- The files of a tree are described once each, in ascending order of their names, unless one of them
cannot be read. -/
theorem describe_cases (hd : d.Sound) (directory : String) :
    (∃ found sorted : List (List Name × Bytes), d.treeFiles directory = .ok found ∧
        sorted.Perm found ∧ sorted.Pairwise (fun a b => Disk.shown a.1 ≤ Disk.shown b.1) ∧
        (describe directory).result d = (.ok (sorted.map entryOf), d)) ∨
      ((∀ found, d.treeFiles directory = .ok found →
          ∃ file ∈ found, ∀ c, d.readBytes (Disk.collected directory file).path ≠ .ok c) ∧
        ∃ e, (describe directory).result d = (.error e, d)) := by
  rw [describe, result_bind, OnDisk.collect, result_within, OnDisk.result_read]
  cases hfound : d.treeFiles directory with
  | error fault =>
    rw [Disk.collect_eq, hfound]
    exact .inr ⟨by simp, _, rfl⟩
  | ok found =>
    obtain ⟨sorted, hperm, hcollect, hascending⟩ := Disk.exists_sorted_of_collect hfound
    rw [hcollect]
    simp only [mapError]
    rcases result_describeFiles (sorted.map (Disk.collected directory)) d with
      ⟨hall, hres⟩ | ⟨⟨f, hf, hnone⟩, e, hres⟩
    · refine .inl ⟨found, sorted, rfl, hperm, hascending, ?_⟩
      rw [hres, List.map_map]
      refine congrArg (fun entries => (Except.ok entries, d)) (List.map_congr_left fun file hfile => ?_)
      obtain ⟨c, hc⟩ := hall _ (List.mem_map_of_mem hfile)
      simp only [Function.comp_apply, Disk.contentsOf_eq hc,
        hd.eq_of_readBytes_collected hfound (hperm.mem_iff.1 hfile) hc]
      rfl
    · obtain ⟨file, hfile, rfl⟩ := List.mem_map.1 hf
      exact .inr ⟨by simpa using ⟨_, _, hperm.mem_iff.1 hfile, hnone⟩, e, hres⟩

theorem exists_describe (hd : d.Sound) {directory : String}
    (hfound : d.treeFiles directory = .ok found)
    (hread : ∀ file ∈ found, ∃ c, d.readBytes (Disk.collected directory file).path = .ok c) :
    ∃ sorted : List (List Name × Bytes), sorted.Perm found ∧
      sorted.Pairwise (fun a b => Disk.shown a.1 ≤ Disk.shown b.1) ∧
      (describe directory).result d = (.ok (sorted.map entryOf), d) := by
  rcases describe_cases hd directory with ⟨found', sorted, hfound', hsorted⟩ | ⟨hnone, -⟩
  · obtain rfl : found = found' := Except.ok.inj (hfound.symm.trans hfound')
    exact ⟨sorted, hsorted⟩
  · obtain ⟨file, hfile, hne⟩ := hnone found hfound
    obtain ⟨c, hc⟩ := hread file hfile
    exact absurd hc (hne c)

theorem exists_of_describe (hd : d.Sound) (h : (describe directory).result d = (.ok entries, d)) :
    ∃ found, d.treeFiles directory = .ok found ∧ entries.Perm (found.map entryOf) := by
  rcases describe_cases hd directory with ⟨found, sorted, hfound, hperm, -, hres⟩ | ⟨-, e, hres⟩
  · cases hres.symm.trans h
    exact ⟨found, hfound, hperm.map _⟩
  · cases hres.symm.trans h

/-- A tree is accepted exactly if its files can be described and compare with those of the manifest, and
otherwise the failure is one of integrity. -/
theorem tree_cases_of_describe (hd : d.Sound) (m : ArchiveManifest) (directory : String) :
    (∃ entries, (describe directory).result d = (.ok entries, d) ∧
        compare m.files entries = .ok () ∧ (tree m directory).result d = (.ok (), d)) ∨
      (∀ entries, (describe directory).result d = (.ok entries, d) →
          compare m.files entries ≠ .ok ()) ∧
        ∃ i, (tree m directory).result d = (.error (.integrity i), d) := by
  rw [tree, result_bind, result_asIntegrity]
  rcases describe_cases hd directory with ⟨found, sorted, -, -, -, hres⟩ | ⟨-, e, hres⟩
  · rw [hres]
    simp only [mapError, result_ofExcept]
    cases hcompare : compare m.files (sorted.map entryOf) with
    | ok u => exact .inl ⟨_, rfl, hcompare, rfl⟩
    | error i =>
      refine .inr ⟨fun entries hentries => ?_, i, rfl⟩
      cases hentries
      simp [hcompare]
  · rw [hres]
    exact .inr ⟨by simp, _, rfl⟩

/-- A tree is accepted only if its files are those of the manifest, and otherwise the failure is one
of integrity. -/
theorem tree_cases (hd : d.Sound) (m : ArchiveManifest) (directory : String) :
    (∃ found, d.treeFiles directory = .ok found ∧ Lists m.files found ∧
        (tree m directory).result d = (.ok (), d)) ∨
      ∃ i, (tree m directory).result d = (.error (.integrity i), d) := by
  rcases tree_cases_of_describe hd m directory with ⟨entries, hentries, hcompare, hres⟩ | ⟨-, hres⟩
  · obtain ⟨found, hfound, hperm⟩ := exists_of_describe hd hentries
    obtain ⟨hnodup, hheld, hlisted⟩ := compare_eq_ok_iff.1 hcompare
    refine .inl ⟨found, hfound, ⟨hnodup, fun e he => ?_, fun file hfile => ?_⟩, hres⟩
    · exact List.mem_map.1 (hperm.mem_iff.1 (List.mem_of_find?_eq_some (hheld e he)))
    · exact hlisted (entryOf file) (hperm.mem_iff.2 (List.mem_map_of_mem hfile))
  · exact .inr hres

theorem compare_of_perm (h : actual.Perm expected)
    (hnodup : (expected.map (·.filename)).Nodup) : compare expected actual = .ok () := by
  refine compare_eq_ok_iff.2 ⟨hnodup, fun e he => ?_, fun f hf => ?_⟩
  · obtain ⟨f, hf⟩ : ∃ f, (actual.find? fun f => f.filename == e.filename) = some f :=
      Option.isSome_iff_exists.1 (List.find?_isSome.2 ⟨e, h.mem_iff.2 he, beq_self_eq_true _⟩)
    have hmem : f ∈ expected := h.mem_iff.1 (List.mem_of_find?_eq_some hf)
    have hname : f.filename = e.filename := by simpa using List.find?_some hf
    rw [hf, List.inj_on_of_nodup_map hnodup hmem he hname]
  · exact List.mem_map_of_mem (h.mem_iff.1 hf)

theorem compare_eq_ok_iff_perm (hnodup : (actual.map (·.filename)).Nodup) :
    compare expected actual = .ok () ↔ expected.Perm actual := by
  refine ⟨fun h => ?_, fun h => compare_of_perm h.symm ((h.map _).nodup_iff.2 hnodup)⟩
  obtain ⟨hexpected, hheld, hlisted⟩ := compare_eq_ok_iff.1 h
  exact perm_of_filenames hexpected hnodup (fun e he => List.mem_of_find?_eq_some (hheld e he)) hlisted

theorem result_tree (hd : d.Sound) {directory : String} (hfound : d.treeFiles directory = .ok found)
    (hread : ∀ file ∈ found, ∃ c, d.readBytes (Disk.collected directory file).path = .ok c)
    (hfiles : m.files.Perm (found.map entryOf)) (hnodup : (m.files.map (·.filename)).Nodup) :
    (tree m directory).result d = (.ok (), d) := by
  obtain ⟨sorted, hperm, -, hres⟩ := exists_describe hd hfound hread
  rw [tree, result_bind, result_asIntegrity, hres]
  simp only [mapError, result_ofExcept, compare_of_perm ((hperm.map _).trans hfiles.symm) hnodup]

/-- A tree is accepted exactly if the manifest lists what is described of it, each regular file once and
nothing else. Whatever else there is, a tree that cannot be read included, is a failure of integrity,
and the disk stays as it is. -/
theorem tree_accepts_exactly_listed (hd : d.Sound) {directory : String}
    (hlegible : d.LegibleTree directory) (m : ArchiveManifest) :
    ((tree m directory).result d = (.ok (), d) ↔
        ∃ found entries, d.treeFiles directory = .ok found ∧
          (describe directory).result d = (.ok entries, d) ∧
          entries.Perm (found.map entryOf) ∧ (entries.map (·.filename)).Nodup ∧
          m.files.Perm entries) ∧
      ((tree m directory).result d ≠ (.ok (), d) →
        ∃ i, (tree m directory).result d = (.error (.integrity i), d)) := by
  -- the files are described by names from which they can be told apart
  have hdescribed : ∀ entries, (describe directory).result d = (.ok entries, d) →
      ∃ found, d.treeFiles directory = .ok found ∧ entries.Perm (found.map entryOf) ∧
        (entries.map (·.filename)).Nodup := by
    intro entries hentries
    obtain ⟨found, hfound, hperm⟩ := exists_of_describe hd hentries
    refine ⟨found, hfound, hperm, (hperm.map _).nodup_iff.2 ?_⟩
    rw [List.map_map]
    exact hd.nodup_shown hfound (hlegible found hfound)
  rcases tree_cases_of_describe hd m directory with ⟨entries, hentries, hcompare, hres⟩ | ⟨hnot, i, hres⟩
  · obtain ⟨found, hfound, hperm, hnodup⟩ := hdescribed entries hentries
    have hlists := (compare_eq_ok_iff_perm hnodup).1 hcompare
    exact ⟨⟨fun _ => ⟨found, entries, hfound, hentries, hperm, hnodup, hlists⟩, fun _ => hres⟩,
      fun hne => absurd hres hne⟩
  · refine ⟨⟨fun hok => by simp [hres] at hok, ?_⟩, fun _ => ⟨i, hres⟩⟩
    rintro ⟨-, entries, -, hentries, -, hnodup, hlists⟩
    exact absurd ((compare_eq_ok_iff_perm hnodup).2 hlists) (hnot entries hentries)

def sparseFiles : List (List Name × Bytes) :=
  [([ofText "b"], [98]), ([ofText "d", ofText "a"], [])]

/-- A disk with a tree of two files, and a link beside them. -/
def sparseDisk : Disk where
  entries := [([ofText "t"], .directory), ([ofText "t", ofText "b"], .file [98]),
    ([ofText "t", ofText "d"], .directory),
    ([ofText "t", ofText "d", ofText "a"], .file []),
    ([ofText "t", ofText "l"], .symlink (ofText "b"))]
  home := []

def listing (files : List FileEntry) : ArchiveManifest :=
  .new {} Artifact.codeArchive files

/-- The files of a tree may be listed in any order, and none of them twice. -/
theorem tree_accepts_sparse : sparseDisk.Sound ∧ sparseDisk.LegibleTree "/t" ∧
    (tree (listing (sparseFiles.reverse.map entryOf)) "/t").result sparseDisk =
      (.ok (), sparseDisk) ∧
    ∃ i, (tree (listing ((sparseFiles ++ sparseFiles).map entryOf)) "/t").result sparseDisk =
      (.error (.integrity i), sparseDisk) := by
  have hfound : sparseDisk.treeFiles "/t" = .ok sparseFiles := by decide +kernel
  have hsound : sparseDisk.Sound := Disk.sound_of_fits (by decide +kernel)
  have hlegible : sparseDisk.LegibleTree "/t" := (hsound.legible (by decide +kernel)).tree "/t"
  refine ⟨hsound, hlegible, (tree_accepts_exactly_listed hsound hlegible _).1.2 ?_,
    (tree_accepts_exactly_listed hsound hlegible _).2 fun haccepted => ?_⟩
  · have hread : ∀ file ∈ sparseFiles,
        ∃ c, sparseDisk.readBytes (Disk.collected "/t" file).path = .ok c := by
      intro file hfile
      exact ⟨file.2, by revert file; decide +kernel⟩
    obtain ⟨sorted, hperm, -, hres⟩ := exists_describe hsound hfound hread
    have hnodup : ((sparseFiles.map entryOf).map (·.filename)).Nodup := by decide +kernel
    exact ⟨_, _, hfound, hres, hperm.map _, ((hperm.map entryOf).map _).nodup_iff.2 hnodup,
      (sparseFiles.reverse_perm.trans hperm.symm).map _⟩
  · obtain ⟨found, entries, hfound', -, hperm, -, hlists⟩ :=
      (tree_accepts_exactly_listed hsound hlegible _).1.1 haccepted
    obtain rfl : sparseFiles = found := Except.ok.inj (hfound.symm.trans hfound')
    exact absurd (hlists.trans hperm).length_eq (by decide)

end Verify

end AgentChain
