import AgentChain.Proofs.FileTree.Aims
import AgentChain.Proofs.FileTree.Collection

/-!
# Disks that differ in some files

Two disks may hold different files at some places, or a file where the other one holds nothing, and
be the same elsewhere. Nothing is led through a file. So a path leads to a directory of one disk
exactly if it leads to that directory of the other, and a file is read alike from both unless the
path ends at one of these places.
-/

namespace AgentChain.Disk

variable {d d' d'' : Disk} {W : Place → Bool} {r : Route} {p P : Place} {c : Bytes}

theorem Keeps.isDirectory (hk : d.Keeps d') (hhome : d'.home = d.home)
    (h : d.isDirectory r) : d'.isDirectory r := by
  obtain ⟨P, hres⟩ := exists_resolve_of_isDirectory h
  exact ((leadsTo_of_resolve hres).mono hk hhome).isDirectory (ne_nil_of_resolve hres)
    (followable_of_resolve hres)

/-- Nothing but files stands at some places, and none of them is closed. -/
structure OnlyFiles (W : Place → Bool) (d : Disk) : Prop where
  file : ∀ q e, W q = true → d.get? q = some e → ∃ c, e = .file c
  opened : ∀ q, W q = true → q ∉ d.closed

/-- Two disks that differ in the files at some places. -/
structure Alike (W : Place → Bool) (d d' : Disk) : Prop where
  left : OnlyFiles W d
  right : OnlyFiles W d'
  entry : ∀ q, W q ≠ true → d'.get? q = d.get? q
  closed : ∀ q, q ∈ d'.closed ↔ q ∈ d.closed
  home : d'.home = d.home

def Misses (W : Place → Bool) (d : Disk) (r : Route) : Prop :=
  ∀ t p, d.resolve true r = .ok t → t.IsSpot p → W p ≠ true

namespace Alike

section

variable (h : Alike W d d')
include h

theorem symm : Alike W d' d where
  left := h.right
  right := h.left
  entry q hq := (h.entry q hq).symm
  closed q := (h.closed q).symm
  home := h.home.symm

theorem trans (h' : Alike W d' d'') : Alike W d d'' where
  left := h.left
  right := h'.right
  entry q hq := (h'.entry q hq).trans (h.entry q hq)
  closed q := (h'.closed q).trans (h.closed q)
  home := h'.home.trans h.home

theorem get?_of_ne_file (he : d.get? p = some e) (hne : ∀ c, e ≠ .file c) : d'.get? p = some e := by
  by_cases hp : W p
  · obtain ⟨c, rfl⟩ := h.left.file p e hp he
    exact absurd rfl (hne c)
  · rw [h.entry p hp, he]

theorem keeps : d.Keeps d' where
  directory _ hq := h.get?_of_ne_file hq (by simp)
  link _ _ hq := h.get?_of_ne_file hq (by simp)
  closed q hq := (h.closed q).mp hq

theorem isDirectory_eq (r : Route) : d'.isDirectory r = d.isDirectory r :=
  Bool.eq_iff_iff.mpr ⟨h.symm.keeps.isDirectory h.symm.home, h.keeps.isDirectory h.home⟩

theorem readBytes_of_misses (hr : Misses W d r)
    (hread : d.readBytes r = .ok c) (hd : d.Sound) : d'.readBytes r = .ok c := by
  obtain ⟨p, hres⟩ := readBytes_eq_ok.mp hread
  have hp := hr _ p hres ⟨rfl, by simp⟩
  have hget : d'.get? p = some (.file c) := (h.entry p hp).trans (hd.get?_of_resolve hres (by simp))
  exact readBytes_eq_ok.mpr ⟨p, h.keeps.resolve_of_file h.home hget hres (.inr ⟨c, rfl⟩)⟩

theorem readBytes_iff (hd : d.Sound) (hd' : d'.Sound) (hr : Misses W d r) :
    d'.readBytes r = .ok c ↔ d.readBytes r = .ok c := by
  refine ⟨fun hread => h.symm.readBytes_of_misses (fun t p ht hp hW => ?_) hread hd',
    fun hread => h.readBytes_of_misses hr hread hd⟩
  -- a route of the second disk that ends at such a place ends there on the first one too
  obtain ⟨q, hres⟩ := readBytes_eq_ok.mp hread
  cases ht.symm.trans hres
  obtain ⟨rfl, -⟩ := hp
  have hget := hd'.get?_of_resolve hres (by simp)
  cases hfree : d.get? q with
  | some e =>
    obtain ⟨c', rfl⟩ := h.left.file q e hW hfree
    exact hr _ q (h.symm.keeps.resolve_of_file h.symm.home hfree hres (.inr ⟨c, rfl⟩))
      ⟨rfl, by simp⟩ hW
  | none =>
    have hne : q ≠ [] := by
      rintro rfl
      rw [get?_nil] at hget
      cases hget
    have hwithin := h.symm.keeps.directory _ (hd'.parent q hne (by simp [hget]))
    have hvacant : d.resolve true r = .ok (.vacant q false) :=
      h.symm.keeps.resolve_of_spot h.symm.home id hres ⟨rfl, by simp⟩ ⟨rfl, rfl, hfree, hwithin⟩
    exact hr _ q hvacant ⟨rfl, rfl⟩ hW

theorem isFile_eq (hd : d.Sound) (hd' : d'.Sound) (hr : Misses W d r) :
    d'.isFile r = d.isFile r := by
  rw [Bool.eq_iff_iff, isFile_iff, isFile_iff]
  exact exists_congr fun c => h.readBytes_iff hd hd' hr

end

end Alike

/-! ### Names in a directory -/

theorem mem_namesAt : n ∈ d.namesAt P ↔ d.get? (P ++ [n]) ≠ none := by
  rw [namesAt, List.mem_filterMap, ← mem_places_iff (by simp), places, List.mem_map]
  refine exists_congr fun e => and_congr_right fun _ => ?_
  constructor
  · intro h
    split at h
    · next hparent => rw [← hparent, List.dropLast_append_getLast? n h]
    · cases h
  · intro h
    rw [h, List.dropLast_concat, if_pos rfl, List.getLast?_concat]

theorem names_eq_ok {names} (h : d.names r = .ok names) :
    ∃ P, d.resolve true r = .ok (.present P .directory) ∧ names.Pairwise (· < ·) ∧
      ∀ name, name ∈ names ↔ d.get? (P ++ [Bytes.ofText name]) ≠ none := by
  rw [Disk.names] at h
  split at h <;> cases h
  next P hres =>
  refine ⟨P, hres, Text.NameSet.pairwise_lt_ofList _, fun name => ?_⟩
  rw [Text.NameSet.mem_ofList, List.mem_filterMap, ← mem_namesAt]
  constructor
  · rintro ⟨n, hn, hname⟩
    rwa [Bytes.ofText_of_text? hname]
  · exact fun hn => ⟨_, hn, Bytes.text?_ofText name⟩

end AgentChain.Disk
