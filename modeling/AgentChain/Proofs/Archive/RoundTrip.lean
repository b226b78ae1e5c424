import AgentChain.Proofs.Archive.Packing
import AgentChain.Proofs.Storage

/-!
# Trees that are packed and unpacked

An archive holds the files of a tree as they were, in ascending order of their names, and nothing else
about the tree: two trees with the same files become the same bytes. Unpacking into a new directory
brings these files back. Both hold as long as packing does not write into the tree: the archive is
written under a temporary name first, and a file of the tree that stands there is emptied before it is
read.
-/

namespace AgentChain

open AgentChain.Action
open Bytes (ofText)
open Verify (sparseDisk)
open Gzip (Encoder encode LawfulEncoder)

/-! ### The order of texts -/

namespace Bytes

theorem utf8EncodeChar_append_lt (h : a < b) (x y : Bytes) :
    String.utf8EncodeChar a ++ x < String.utf8EncodeChar b ++ y := by
  have hab : a.val.toNat < b.val.toNat := h
  have hb : b.val.toNat < 1114112 := by
    rcases b.valid with hb | hb
    · exact Nat.lt_trans hb (by decide)
    · exact hb.2
  have hlt : ∀ m n : Nat, UInt8.ofNat m < UInt8.ofNat n ↔ m % 256 < n % 256 := fun m n => by
    rw [UInt8.lt_iff_toNat_lt]
    rfl
  have heq : ∀ m n : Nat, UInt8.ofNat m = UInt8.ofNat n ↔ m % 256 = n % 256 := fun m n => by
    rw [← UInt8.toNat_inj]
    rfl
  have hdiv : ∀ n : Nat, n / 4096 = n / 64 / 64 ∧ n / 262144 = n / 64 / 64 / 64 := fun n => by omega
  simp only [String.utf8EncodeChar, hdiv]
  generalize a.val.toNat = m at hab
  generalize b.val.toNat = n at hab hb
  split_ifs <;> simp only [List.cons_append, List.nil_append, List.cons_lt_cons_iff, hlt, heq] <;>
    omega

theorem ofText_lt (h : s < t) : ofText s < ofText t := by
  rw [ofText_eq, ofText_eq]
  rw [String.lt_iff] at h
  generalize s.toList = a, t.toList = b at h
  induction h with
  | @nil c b =>
    rw [List.flatMap_cons]
    cases hc : String.utf8EncodeChar c with
    | nil => simp at hc
    | cons x rest => exact .nil
  | rel hlt => exact utf8EncodeChar_append_lt hlt _ _
  | cons _ ih => exact List.append_left_lt ih

end Bytes

/-! ### Packing -/

namespace Archive

open Disk OnDisk

variable {d d' : Disk} {tree out : String} {summary : Summary} {found : List (List Name × Bytes)}

/-- Once the directory of an archive is there, what stands under the temporary name is no link and no
file of the tree. -/
def Aside (d : Disk) (tree out : String) : Prop :=
  ∀ d₀ p e, (createParent out).result d = (.ok (), d₀) →
    d₀.resolve false (temporary out) = .ok (.present p e) → (∀ t, e ≠ .symlink t) ∧
      ∀ P e', d.resolve true tree = .ok (.present P e') → ∀ q, P <+: q → d₀.areTwins p q = false

theorem Aside.look? (h : Aside d tree out)
    (hparent : (createParent out).result d = (.ok (), d₀)) (t : Bytes) :
    d₀.look? (temporary out) ≠ some (.symlink t) := by
  rcases hres : d₀.resolve false (temporary out) with fault | ⟨p, e⟩ | ⟨p, s⟩
  · simp [Disk.look?, hres]
  · simpa [Disk.look?, hres] using (h d₀ p e hparent hres).1 t
  · simp [Disk.look?, hres]

theorem aside_of_vacant
    (h : ((createParent out).result d).2.resolve false (temporary out) = .ok (.vacant p s)) :
    Aside d tree out := by
  intro d₀ q e hparent hres
  rw [hparent, hres] at h
  cases h

/-- The files of the tree are read as they were, once the file under the temporary name is emptied. -/
theorem Aside.eq_of_readBytes (h : Aside d tree out) (hd : d.Sound)
    (hparent : (createParent out).result d = (.ok (), d₀)) (hoffers : d₀.Offers (temporary out) q)
    (hfound : d.treeFiles tree = .ok found) :
    ∀ file ∈ found, ∀ c, (d₀.fill q []).readBytes (collected tree file).path = .ok c → c = file.2 := by
  obtain ⟨hd₀, hfurnished⟩ := furnishing_createParent.of_result hparent hd
  have hplace := hoffers.vacant_or_file hd₀
  have hgrows := hfurnished.grows.trans (hd₀.grows_fill (c := []) hplace)
  intro file hfile c
  refine hd.eq_of_readBytes_kept (hd₀.fill hplace) hgrows.keeps hgrows.home
    (fun P e hP p c hp hget => ?_) hfound hfile
  have hget₀ : d₀.get? p = some (.file c) := by
    rcases hfurnished.entry p with heq | ⟨hnone, -⟩
    · exact heq.trans hget
    · cases hnone.symm.trans hget
  have hother : d₀.areTwins q p = false := by
    rcases hoffers with hvacant | ⟨c', hfile⟩
    · have hfree := (hd₀.vacant_of_resolve hvacant).free
      refine Bool.eq_false_iff.2 fun htwins => ?_
      obtain rfl := (hd₀.alone_of_free hfree).areTwins_iff.1 htwins
      cases hfree.symm.trans hget₀
    · exact (h d₀ q _ hparent hfile).2 P e hP p hp
  have hne : p ≠ q := by
    rintro rfl
    simp [areTwins] at hother
  rw [get?_fill (ne_nil_of_vacant_or_file hplace), if_neg hne, if_neg (by simp [hother]), hget₀]

/-- A path holds an archive that carries some files, and a summary tells of it. -/
structure Holds [Encoder] (out : String) (packed : List (List Name × Bytes))
    (summary : Summary) (d : Disk) : Prop where
  carries : Carries (tarBytes packed) packed
  files : summary.files = packed.map Verify.entryOf
  sound : d.Sound
  contents : d.readBytes out = .ok (encode (tarBytes packed ++ Tar.ending))
  sha256 : summary.sha256 = Sha256.hex (encode (tarBytes packed ++ Tar.ending))
  size : summary.size = UInt64.ofNat (encode (tarBytes packed ++ Tar.ending)).length

/-- Packing that succeeds leaves an archive that carries what was read of the files of the tree, once the
file under the temporary name was emptied. -/
theorem exists_read [Encoder] [LawfulEncoder] (hd : d.Sound) (hlegible : d.LegibleTree tree)
    (hlink : ∀ d₀, (createParent out).result d = (.ok (), d₀) → ∀ t,
      d₀.look? (temporary out) ≠ some (.symlink t))
    (hpack : (pack tree out).result d = (.ok summary, d')) :
    ∃ found packed d₀ q, d.treeFiles tree = .ok found ∧ packed ≠ [] ∧
      (createParent out).result d = (.ok (), d₀) ∧ d₀.Offers (temporary out) q ∧
      PacksAs (d₀.fill q []) tree found packed ∧ Holds out packed summary d' := by
  obtain ⟨files, d₀, d₂, n, contents, hcollect, hparent, hwritten, hn, hcount, hrename, hread, hsha,
    hsize⟩ := pack_eq_ok hpack
  obtain ⟨d₁, bytes, hempty, hmembers, hfull⟩ := writeMembers_eq_ok hwritten
  obtain ⟨hd₀, -⟩ := furnishing_createParent.of_result hparent hd
  obtain ⟨⟨q, hoffers, rfl⟩, hcontents⟩ :=
    hd₀.eq_of_replaced (hlink d₀ hparent) hempty hfull hrename
  obtain ⟨found, packed, hfound, hpacks, hcarries, rfl, hentries⟩ :=
    exists_carries hd hlegible hcollect hmembers
  obtain rfl := hcontents contents hread
  have hcount' := result_count_of_writeMembers hd hlegible hd₀ hcollect hwritten
  have hlength : n = summary.files.length := by simpa using hcount.symm.trans hcount'
  refine ⟨found, packed, d₀, q, hfound, ?_, hparent, hoffers, hpacks, hcarries, hentries,
    ((hd₀.writeFile hempty).writeFile hfull).rename hrename, hread, hsha, hsize⟩
  rintro rfl
  exact hn (by simpa [hentries] using hlength)

/-- Packing that succeeds leaves an archive that carries the files of the tree, in ascending order of
their names. -/
theorem exists_packed [Encoder] [LawfulEncoder] (hd : d.Sound)
    (hlegible : d.LegibleTree tree) (haside : Aside d tree out)
    (hpack : (pack tree out).result d = (.ok summary, d')) :
    ∃ found packed, d.treeFiles tree = .ok found ∧ packed.Perm found ∧ packed ≠ [] ∧
      packed.Pairwise (fun a b => shown a.1 < shown b.1) ∧ Holds out packed summary d' := by
  obtain ⟨found, packed, d₀, q, hfound, hne, hparent, hoffers, hpacks, hrest⟩ :=
    exists_read hd hlegible (fun _ => haside.look?) hpack
  exact ⟨found, packed, hfound, hpacks.perm (hd.nodup_treeFiles hfound)
    (haside.eq_of_readBytes hd hparent hoffers hfound), hne, hpacks.ascending, hrest⟩

theorem eq_of_perm_of_ascending {files files' : List (List Name × Bytes)} (hperm : files.Perm files')
    (hasc : files.Pairwise fun a b => shown a.1 < shown b.1)
    (hle : files'.Pairwise fun a b => shown a.1 ≤ shown b.1) : files = files' := by
  have hnodup : (files.map fun file => shown file.1).Nodup :=
    List.pairwise_map.2 (hasc.imp Std.ne_of_lt)
  refine hperm.eq_of_pairwise (fun a b ha hb hab hba => ?_) (hasc.imp Std.le_of_lt) hle
  exact List.inj_on_of_nodup_map hnodup ha (hperm.mem_iff.2 hb) (String.le_antisymm hab hba)

/-- Unpacking brings the files of the tree back, with their names and contents. What is described of them
is what packing returned, and so are the hash and the size of the archive. -/
theorem unpack_restores_tree [Encoder] [LawfulEncoder] (hd : d.Sound)
    (hlegible : d.LegibleTree tree) (haside : Aside d tree out)
    (hpack : (pack tree out).result d = (.ok summary, d')) {dest : String} {D : Place}
    (hfresh : d'.Fresh dest D) (hroom : ∀ e ∈ summary.files,
      (ofText (Path.join dest e.filename)).length < pathLimit) :
    ∃ found restored d'', d.treeFiles tree = .ok found ∧
      (unpack out dest).result d' = (.ok (), d'') ∧ d''.treeFiles dest = .ok restored ∧
      restored.Perm found ∧ (describe dest).result d'' = (.ok summary.files, d'') ∧
      (count out).result d' = (.ok found.length, d') ∧
      ∃ contents, d'.readBytes out = .ok contents ∧ summary.sha256 = Sha256.hex contents ∧
        summary.size = UInt64.ofNat contents.length := by
  obtain ⟨found, packed, hfound, hperm, -, hasc, hcarries, hfiles, hd', hread, hsha, hsize⟩ :=
    exists_packed hd hlegible haside hpack
  obtain ⟨d'', restored, sorted, hunpack, hrestored, hback, hsorted, hle, hdescribe⟩ :=
    result_describe_unpack hcarries hd' hfresh hread fun file hfile =>
      hroom (Verify.entryOf file) (hfiles ▸ List.mem_map_of_mem hfile)
  obtain rfl := eq_of_perm_of_ascending hsorted.symm hasc hle
  refine ⟨found, restored, d'', hfound, hunpack, hrestored, hback.trans hperm, hfiles ▸ hdescribe, ?_,
    _, hread, hsha, hsize⟩
  rw [← hperm.length_eq]
  exact hcarries.result_count hread

set_option maxRecDepth 100000

/-- A tree is packed beside itself and unpacked again. -/
theorem unpack_restores_sparse :
    ∃ summary d' d'' restored, sparseDisk.Sound ∧ sparseDisk.LegibleTree "/t" ∧
      Aside sparseDisk "/t" "/o.tgz" ∧
      (pack "/t" "/o.tgz").result sparseDisk = (.ok summary, d') ∧
      (unpack "/o.tgz" "/u").result d' = (.ok (), d'') ∧ d''.treeFiles "/u" = .ok restored ∧
      restored.Perm Verify.sparseFiles := by
  have hlegible : sparseDisk.Legible := legible_of_fits (by decide +kernel)
  have haside : Aside sparseDisk "/t" "/o.tgz" :=
    aside_of_vacant (p := [ofText "o.tgz.tmp"]) (s := false) (by decide +kernel)
  have hfound : sparseDisk.treeFiles "/t" = .ok Verify.sparseFiles := by decide +kernel
  have hrun : (((packDirectly "/t" "/o.tgz").result sparseDisk).1.toOption.map fun s =>
        s.files.all fun e => (ofText (Path.join "/u" e.filename)).length < pathLimit) = some true ∧
      ((packDirectly "/t" "/o.tgz").result sparseDisk).2.Fresh "/u" [ofText "u"] := by
    decide +kernel
  obtain ⟨summary, d', hpacked, hroom⟩ := exists_of_map_toOption hrun.1
  rw [hpacked] at hrun
  have hpack := result_pack_of_directly hlegible hpacked
  obtain ⟨found, restored, d'', hfound', hunpack, hrestored, hperm, -⟩ :=
    unpack_restores_tree hlegible.sound (hlegible.tree "/t") haside hpack hrun.2
      (by simpa using hroom)
  obtain rfl : Verify.sparseFiles = found := Except.ok.inj (hfound.symm.trans hfound')
  exact ⟨summary, d', d'', restored, hlegible.sound, hlegible.tree "/t", haside, hpack, hunpack,
    hrestored, hperm⟩

/-- Files one of which has the temporary name of an archive. -/
def nestedFiles : List (List Name × Bytes) :=
  [([ofText "a"], [65]), ([ofText "o.tgz.tmp"], [111, 108, 100])]

def nestedDisk : Disk where
  entries := ([ofText "t"], .directory) ::
    nestedFiles.map fun file => (ofText "t" :: file.1, .file file.2)
  home := []

/-- A file of the tree under the temporary name is empty when it is packed, and so it comes back. -/
theorem unpack_loses_temporary :
    nestedDisk.Legible ∧ nestedDisk.treeFiles "/t" = .ok nestedFiles ∧
      ∃ summary d' d'' entries, (pack "/t" "/t/o.tgz").result nestedDisk = (.ok summary, d') ∧
        (unpack "/t/o.tgz" "/u").result d' = (.ok (), d'') ∧
        (describe "/u").result d'' = (.ok entries, d'') ∧
        ¬ entries.Perm (nestedFiles.map Verify.entryOf) := by
  have hlegible : nestedDisk.Legible := legible_of_fits (by decide +kernel)
  have hlook : ((createParent "/t/o.tgz").result nestedDisk).2.look? (temporary "/t/o.tgz") =
      some (.file [111, 108, 100]) := by decide +kernel
  have hfound : nestedDisk.treeFiles "/t" = .ok nestedFiles := by decide +kernel
  have hrun : (((packDirectly "/t" "/t/o.tgz").result nestedDisk).1.toOption.map fun s =>
        (s.files.map (·.size), s.files.all fun e =>
          (ofText (Path.join "/u" e.filename)).length < pathLimit)) = some ([1, 0], true) ∧
      ((packDirectly "/t" "/t/o.tgz").result nestedDisk).2.Fresh "/u" [ofText "u"] := by
    decide +kernel
  obtain ⟨summary, d', hpacked, hsummary⟩ := exists_of_map_toOption hrun.1
  obtain ⟨hsizes, hroom⟩ := Prod.mk.inj hsummary
  rw [hpacked] at hrun
  have hpack := result_pack_of_directly hlegible hpacked
  obtain ⟨-, packed, -, -, -, -, -, -, -, hcarries, hfiles, hd', hread, -⟩ :=
    exists_read hlegible.sound (hlegible.tree "/t") (fun d₀ hparent t ht => by
      rw [hparent, ht] at hlook
      cases hlook) hpack
  obtain ⟨d'', -, sorted, hunpack, -, -, hsorted, -, hdescribe⟩ := result_describe_unpack hcarries hd'
    hrun.2 hread fun file hfile => of_decide_eq_true
      (List.all_eq_true.1 hroom (Verify.entryOf file) (hfiles ▸ List.mem_map_of_mem hfile))
  refine ⟨hlegible, hfound, summary, d', d'', _, hpack, hunpack, hdescribe, fun hperm => ?_⟩
  have hsame : (summary.files.map (·.size)).Perm ((nestedFiles.map Verify.entryOf).map (·.size)) :=
    ((hfiles ▸ (hsorted.map _).symm).trans hperm).map _
  rw [hsizes] at hsame
  exact absurd hsame (by decide +kernel)

theorem treeFiles_of_emptyArchive [Encoder] [LawfulEncoder] (hd : d.Sound)
    (hlegible : d.LegibleTree tree) (hf : f.cause = .packaging (.emptyArchive out))
    (hpack : (pack tree out).result d = (.error f, d')) : d.treeFiles tree = .ok [] := by
  -- everything but the check of the archive fails with something else
  have hC : Closed (fun _ => True) (fun f => f.cause ≠ .packaging (.emptyArchive out)) fun _ x =>
      Fails (fun f => f.cause ≠ .packaging (.emptyArchive out)) x :=
    closed_fails ⟨fun _ => by simp [Failure.cause], fun _ => by simp [Failure.cause],
      fun _ _ hf => by simpa [Failure.cause] using hf⟩
  cases pack_eq_error hpack with
  | collect h => exact absurd hf ((hC.collect _).of_result h)
  | parent h => exact absurd hf ((hC.createParent_text (fun _ => trivial) _).of_result h)
  | unnamed _ h => simp [h, Failure.cause] at hf
  | move _ _ h =>
    refine absurd hf (Fails.of_result (P := fun f => f.cause ≠ _) ?_ h)
    exact hC.bind (hC.within _ (hC.change trivial)) fun _ => hC.bind (closed_sizeOf hC _) fun _ =>
      hC.bind (closed_hashFile hC _) fun _ => hC.pure _
  | @write files d₁ _ _ hcollect hparent hchecked hdiscard =>
    rcases result_bind_eq_error.1 hchecked with h | ⟨entries, d₄, hmembers, h⟩
    · exact absurd hf ((closed_writeMembers hC (fun _ => trivial) files).of_result h)
    rcases result_bind_eq_error.1 h with h | ⟨n, d₅, hcount, h⟩
    · exact absurd hf ((closed_count hC _).of_result h)
    split at h
    swap
    · cases h
    next hn =>
    have hd₁ := (furnishing_createParent.of_result hparent hd).1
    have hcount' := result_count_of_writeMembers hd hlegible hd₁ hcollect hmembers
    have hlength : n = entries.length := by simpa using congrArg Prod.fst (hcount.symm.trans hcount')
    obtain ⟨d₆, bytes, -, hmembers', -⟩ := writeMembers_eq_ok hmembers
    obtain ⟨found, packed, hfound, hpacks, -, -, rfl⟩ := exists_carries hd hlegible hcollect hmembers'
    obtain rfl : packed = [] := List.length_eq_zero_iff.1 (by simpa [hn] using hlength.symm)
    obtain rfl : found = [] := by simpa using hpacks.names.symm
    exact hfound

theorem ne_nil_of_pack [Encoder] [LawfulEncoder] (hd : d.Sound)
    (hlegible : d.LegibleTree tree) (haside : Aside d tree out)
    (hfound : d.treeFiles tree = .ok found) (hpack : (pack tree out).result d = (.ok summary, d'))
    : found ≠ [] := by
  rintro rfl
  obtain ⟨found, packed, hfound', hperm, hne, -⟩ := exists_packed hd hlegible haside hpack
  obtain rfl : [] = found := Except.ok.inj (hfound.symm.trans hfound')
  exact hne (List.perm_nil.1 hperm)

theorem fails_pack [Encoder] : Fails (fun f => f.cause = .packaging (.emptyArchive out) ∨
    (∃ fault, f.cause = .fault fault) ∨ ∃ refusal, f.cause = .refusal refusal) (pack tree out) := by
  have hC := closed_fails (K := fun _ => True) (P := fun f =>
    f.cause = .packaging (.emptyArchive out) ∨
      (∃ fault, f.cause = .fault fault) ∨ ∃ refusal, f.cause = .refusal refusal)
    ⟨fun x => .inr (.inl ⟨x, rfl⟩), fun x _ => .inr (.inr ⟨x, rfl⟩), fun _ _ hf => hf⟩
  exact closed_pack hC (.inl rfl) (hC.createParent_text (fun _ => trivial) _)
    (fun _ _ => ⟨fun _ => trivial, trivial, trivial⟩) tree

/-- Trees with the same files become the same archive, with its entries in strictly ascending order of
the bytes of their names, whatever else is different about the trees and the disks. Without files both
are refused for that reason. Apart from that, packing fails with faults of the disk and with paths that
are refused only. -/
theorem pack_depends_on_files_only [Encoder] [LawfulEncoder] {d₁ d₁' d₂ d₂' : Disk}
    {tree₁ tree₂ out₁ out₂ : String} {found₁ found₂ : List (List Name × Bytes)}
    {r₁ r₂ : Except Failure Summary} (hd₁ : d₁.Sound) (hd₂ : d₂.Sound)
    (hlegible₁ : d₁.LegibleTree tree₁) (hlegible₂ : d₂.LegibleTree tree₂)
    (haside₁ : Aside d₁ tree₁ out₁) (haside₂ : Aside d₂ tree₂ out₂)
    (hfound₁ : d₁.treeFiles tree₁ = .ok found₁) (hfound₂ : d₂.treeFiles tree₂ = .ok found₂)
    (hsame : found₁.Perm found₂) (hpack₁ : (pack tree₁ out₁).result d₁ = (r₁, d₁'))
    (hpack₂ : (pack tree₂ out₂).result d₂ = (r₂, d₂')) :
    (found₁ ≠ [] ∧ ∃ summary contents, r₁ = .ok summary ∧ r₂ = .ok summary ∧
        d₁'.readBytes out₁ = .ok contents ∧ d₂'.readBytes out₂ = .ok contents ∧
        summary.sha256 = Sha256.hex contents ∧ summary.size = UInt64.ofNat contents.length ∧
        summary.files.Perm (found₁.map Verify.entryOf) ∧
        (summary.files.map fun e => ofText e.filename).Pairwise (· < ·)) ∨
      (found₁ = [] ∧ ∃ f₁ f₂, r₁ = .error f₁ ∧ r₂ = .error f₂ ∧
        f₁.cause = .packaging (.emptyArchive out₁) ∧ f₂.cause = .packaging (.emptyArchive out₂)) ∨
      ∃ f, (r₁ = .error f ∨ r₂ = .error f) ∧
        ((∃ fault, f.cause = .fault fault) ∨ ∃ refusal, f.cause = .refusal refusal) := by
  cases r₁ with
  | error f₁ =>
    rcases fails_pack.of_result hpack₁ with hempty₁ | hother
    swap
    · exact .inr (.inr ⟨f₁, .inl rfl, hother⟩)
    obtain rfl : found₁ = [] := Except.ok.inj
      (hfound₁.symm.trans (treeFiles_of_emptyArchive hd₁ hlegible₁ hempty₁ hpack₁))
    obtain rfl : found₂ = [] := List.nil_perm.1 hsame
    cases r₂ with
    | error f₂ =>
      rcases fails_pack.of_result hpack₂ with hempty₂ | hother
      · exact .inr (.inl ⟨rfl, f₁, f₂, rfl, rfl, hempty₁, hempty₂⟩)
      · exact .inr (.inr ⟨f₂, .inr rfl, hother⟩)
    | ok summary₂ => exact absurd rfl (ne_nil_of_pack hd₂ hlegible₂ haside₂ hfound₂ hpack₂)
  | ok summary₁ =>
    have hne := ne_nil_of_pack hd₁ hlegible₁ haside₁ hfound₁ hpack₁
    cases r₂ with
    | error f₂ =>
      rcases fails_pack.of_result hpack₂ with hempty₂ | hother
      · obtain rfl : found₂ = [] := Except.ok.inj
          (hfound₂.symm.trans (treeFiles_of_emptyArchive hd₂ hlegible₂ hempty₂ hpack₂))
        exact absurd (List.perm_nil.1 hsame) hne
      · exact .inr (.inr ⟨f₂, .inr rfl, hother⟩)
    | ok summary₂ =>
      obtain ⟨found, packed, hfound, hperm, -, hasc, -, hfiles, -, hread, hsha, hsize⟩ :=
        exists_packed hd₁ hlegible₁ haside₁ hpack₁
      obtain rfl : found₁ = found := Except.ok.inj (hfound₁.symm.trans hfound)
      obtain ⟨found, packed', hfound, hperm', -, hasc', -, hfiles', -, hread', hsha', hsize'⟩ :=
        exists_packed hd₂ hlegible₂ haside₂ hpack₂
      obtain rfl : found₂ = found := Except.ok.inj (hfound₂.symm.trans hfound)
      obtain rfl := eq_of_perm_of_ascending (hperm.trans (hsame.trans hperm'.symm)) hasc
        (hasc'.imp Std.le_of_lt)
      have heq : summary₁ = summary₂ := by
        cases summary₁
        cases summary₂
        simp_all
      refine .inl ⟨hne, summary₁, _, rfl, heq ▸ rfl, hread, hread', hsha, hsize, ?_, ?_⟩
      · exact hfiles ▸ hperm.map _
      · rw [hfiles, List.map_map, List.pairwise_map]
        exact hasc.imp Bytes.ofText_lt

/-- A disk with the same files in a tree elsewhere, and an empty directory in place of the link. -/
def elsewhereDisk : Disk where
  entries := [([ofText "s"], .directory), ([ofText "s", ofText "t"], .directory),
    (["s", "t", "e"].map ofText, .directory), (["s", "t", "b"].map ofText, .file [98]),
    (["s", "t", "d"].map ofText, .directory), (["s", "t", "d", "a"].map ofText, .file [])]
  home := []

/-- Two trees on two disks become the same archive. -/
theorem pack_sparse_elsewhere : ∃ summary contents d₁ d₂,
    (pack "/t" "/o.tgz").result sparseDisk = (.ok summary, d₁) ∧
      (pack "/s/t" "/s/o.tgz").result elsewhereDisk = (.ok summary, d₂) ∧
      d₁.readBytes "/o.tgz" = .ok contents ∧ d₂.readBytes "/s/o.tgz" = .ok contents := by
  have hlegible₁ : sparseDisk.Legible := legible_of_fits (by decide +kernel)
  have hlegible₂ : elsewhereDisk.Legible := legible_of_fits (by decide +kernel)
  have hfound₁ : sparseDisk.treeFiles "/t" = .ok Verify.sparseFiles := by decide +kernel
  have hfound₂ : elsewhereDisk.treeFiles "/s/t" = .ok Verify.sparseFiles := by decide +kernel
  have hrun : ((packDirectly "/t" "/o.tgz").result sparseDisk).1.toOption.isSome ∧
      ((packDirectly "/s/t" "/s/o.tgz").result elsewhereDisk).1.toOption.isSome := by
    decide +kernel
  obtain ⟨summary₁, d₁, hpacked₁⟩ := exists_of_isSome hrun.1
  obtain ⟨summary₂, d₂, hpacked₂⟩ := exists_of_isSome hrun.2
  have hpack₁ := result_pack_of_directly hlegible₁ hpacked₁
  have hpack₂ := result_pack_of_directly hlegible₂ hpacked₂
  rcases pack_depends_on_files_only hlegible₁.sound hlegible₂.sound (hlegible₁.tree "/t")
    (hlegible₂.tree "/s/t")
    (aside_of_vacant (p := [ofText "o.tgz.tmp"]) (s := false) (by decide +kernel))
    (aside_of_vacant (p := ["s", "o.tgz.tmp"].map ofText) (s := false) (by decide +kernel))
    hfound₁ hfound₂ (.refl _) hpack₁ hpack₂ with
    ⟨-, summary, contents, ⟨⟩, ⟨⟩, hread₁, hread₂, -⟩ | ⟨-, f, -, ⟨⟩, -⟩ | ⟨f, ⟨⟨⟩⟩ | ⟨⟨⟩⟩, -⟩
  exact ⟨summary₁, contents, d₁, d₂, hpack₁, hpack₂, hread₁, hread₂⟩

/-- A tree into which its archive is written becomes another archive than it becomes elsewhere. -/
theorem pack_into_tree_differs : nestedDisk.Legible ∧ ∃ summary₁ summary₂ d₁ d₂,
    (pack "/t" "/o.tgz").result nestedDisk = (.ok summary₁, d₁) ∧
      (pack "/t" "/t/o.tgz").result nestedDisk = (.ok summary₂, d₂) ∧
      summary₁.files ≠ summary₂.files := by
  have hlegible : nestedDisk.Legible := legible_of_fits (by decide +kernel)
  have hrun : (((packDirectly "/t" "/o.tgz").result nestedDisk).1.toOption.map fun s =>
        s.files.map (·.size)) = some [1, 3] ∧
      (((packDirectly "/t" "/t/o.tgz").result nestedDisk).1.toOption.map fun s =>
        s.files.map (·.size)) = some [1, 0] := by
    decide +kernel
  obtain ⟨summary₁, d₁, hpacked₁, hsizes₁⟩ := exists_of_map_toOption hrun.1
  obtain ⟨summary₂, d₂, hpacked₂, hsizes₂⟩ := exists_of_map_toOption hrun.2
  refine ⟨hlegible, summary₁, summary₂, d₁, d₂, result_pack_of_directly hlegible hpacked₁,
    result_pack_of_directly hlegible hpacked₂, fun heq => ?_⟩
  rw [heq, hsizes₂] at hsizes₁
  cases hsizes₁

end Archive

end AgentChain
