import AgentChain.Proofs.FileTree.Legible
import AgentChain.Proofs.Sandbox.Scripted

/-!
# What a sandbox shows of a tree that is brought in

A view of a sandbox says which files can be seen in it: for every key, the contents of the file with
that key. Making directories changes nothing in a view, and writing a file changes it at one key. A
tree that is brought in is written file by file, so afterwards the view has the files of the tree at
their keys and is as it was everywhere else.
-/

namespace AgentChain.Sandbox

variable {S K : Type}

/-! ### Files that are laid over others -/

section Laid

variable {α : Type} (place : α → K)

/-- Files with keys are put in place of what was there, and everything else is as it was. -/
def Laid (files : List (α × Bytes)) (before after : K → Option Bytes) : Prop :=
  ∀ k c, after k = some c ↔ (∃ file ∈ files, k = place file.1 ∧ c = file.2) ∨
    (∀ file ∈ files, k ≠ place file.1) ∧ before k = some c

/-- The contents by keys after files were put in place of what was there. -/
def overlay [DecidableEq K] (files : List (α × Bytes)) (before : K → Option Bytes) :
    K → Option Bytes :=
  files.foldl (fun contents file => Function.update contents (place file.1) (some file.2)) before

variable {place} {files : List (α × Bytes)} {before after : K → Option Bytes}

namespace Laid

variable {k : K} {c : Bytes} (h : Laid place files before after)
include h

theorem eq_some_iff (hk : before k = none) :
    after k = some c ↔ ∃ file ∈ files, k = place file.1 ∧ c = file.2 := by
  rw [h k c, hk]
  simp

theorem eq_of_forall_ne (hk : ∀ file ∈ files, k ≠ place file.1) : after k = before k := by
  ext c
  have hnone : ¬ ∃ file ∈ files, k = place file.1 ∧ c = file.2 := by
    rintro ⟨file, hfile, heq, -⟩
    exact hk file hfile heq
  rw [h k c, or_iff_right hnone, and_iff_right hk]

end Laid

theorem laid_overlay [DecidableEq K] (hnodup : (files.map fun file => place file.1).Nodup) :
    Laid place files before (overlay place files before) := by
  induction files generalizing before with
  | nil => simp [Laid, overlay]
  | cons file files ih =>
    intro k c
    rw [List.map_cons, List.nodup_cons] at hnodup
    obtain ⟨hfresh, hrest⟩ := hnodup
    have hfresh : ∀ other ∈ files, place file.1 ≠ place other.1 := fun other hother heq =>
      hfresh (heq ▸ List.mem_map_of_mem hother)
    rw [overlay, List.foldl_cons]
    refine (ih hrest k c).trans ?_
    by_cases hk : k = place file.1
    · subst hk
      simp only [List.mem_cons, exists_eq_or_imp, Function.update_self, Option.some.injEq]
      constructor
      · rintro (⟨other, hother, heq, -⟩ | ⟨-, rfl⟩)
        · exact absurd heq (hfresh other hother)
        · exact .inl (.inl ⟨trivial, rfl⟩)
      · rintro ((⟨-, rfl⟩ | ⟨other, hother, heq, -⟩) | ⟨hne, -⟩)
        · exact .inr ⟨hfresh, rfl⟩
        · exact absurd heq (hfresh other hother)
        · exact absurd rfl (hne file (.inl rfl))
    · rw [Function.update_of_ne hk]
      simp [hk]

end Laid

/-! ### Files that are brought in -/

section BringIn

open AgentChain.Action

variable {box : Sandbox S} {s t : Disk × S} {dest : String}

theorem result_onDisk_read :
    (onDisk ((OnDisk.read f).within context)).result s = (.ok a, t) ↔ f s.1 = .ok a ∧ t = s := by
  rw [onDisk, result_onPart, result_within, OnDisk.result_read]
  cases f s.1 <;> simp [Except.mapError, eq_comm (b := t)]

theorem bringInFiles_cons_eq_ok
    (h : (bringInFiles box dest (file :: rest)).result s = (.ok (), t)) :
    ∃ c s₁ s₂, s.1.readBytes file.path = .ok c ∧
      (s₁ = s ∨ ∃ directory,
        beforeLastSlash? (withoutTrailingSlashes dest ++ "/" ++ file.name) = some directory ∧
          (box.createDirectories directory).result s = (.ok (), s₁)) ∧
      (box.writeFile (withoutTrailingSlashes dest ++ "/" ++ file.name) c).result s₁ = (.ok (), s₂) ∧
      (bringInFiles box dest rest).result s₂ = (.ok (), t) := by
  rw [bringInFiles] at h
  obtain ⟨c, s', hcontents, hrest⟩ := result_bind_eq_ok.1 h
  obtain ⟨hread, rfl⟩ := result_onDisk_read.1 hcontents
  refine ⟨c, ?_⟩
  simp only at hrest
  split at hrest
  · next directory hdirectory =>
    split at hrest
    · obtain ⟨⟨⟩, s₂, hwrite, hrest⟩ := result_bind_eq_ok.1 hrest
      exact ⟨s', s₂, hread, .inl rfl, hwrite, hrest⟩
    · obtain ⟨⟨⟩, s₁, hmake, hrest⟩ := result_bind_eq_ok.1 hrest
      obtain ⟨⟨⟩, s₂, hwrite, hrest⟩ := result_bind_eq_ok.1 hrest
      exact ⟨s₁, s₂, hread, .inr ⟨directory, hdirectory, hmake⟩, hwrite, hrest⟩
  · obtain ⟨⟨⟩, s₂, hwrite, hrest⟩ := result_bind_eq_ok.1 hrest
    exact ⟨s', s₂, hread, .inl rfl, hwrite, hrest⟩

end BringIn

/-! ### Views -/

/-- How the files of a sandbox are seen: the states that are looked at, the paths that can be told
from each other, and the contents of the files by their keys. -/
structure View (box : Sandbox S) (K : Type) [DecidableEq K] where
  Valid : Disk × S → Prop
  Fits : String → Prop
  /-- The key of the file at a path. -/
  place : String → K
  contents : Disk × S → K → Option Bytes
  /-- Directories that are made do not show. -/
  created : ∀ {path : String} {s t : Disk × S}, Fits path → Valid s →
    (box.createDirectories path).result s = (.ok (), t) → Valid t ∧ contents t = contents s
  /-- A file that is written shows at its key. -/
  written : ∀ {path : String} {c : Bytes} {s t : Disk × S}, Fits path → Valid s →
    (box.writeFile path c).result s = (.ok (), t) →
      Valid t ∧ contents t = Function.update (contents s) (place path) (some c)

def inApp (name : String) : String :=
  appRoot ++ "/" ++ name

namespace View

open AgentChain.Action Disk

variable [DecidableEq K] {box : Sandbox S} (V : View box K) {s t : Disk × S} {source : String}
  {files found : List (List Name × Bytes)}

def Ready (files : List (List Name × Bytes)) : Prop :=
  ∀ file ∈ files, ∀ path, path = inApp (shown file.1) ∨
    beforeLastSlash? (inApp (shown file.1)) = some path → V.Fits path

/-- The files of a tree can be read whatever is in the sandbox, and are as they were. -/
def Reads (source : String) (files : List (List Name × Bytes)) : Prop :=
  ∀ file ∈ files, ∀ s c, V.Valid s → s.1.readBytes (collected source file).path = .ok c → c = file.2

variable {V}

theorem bringInFiles (hready : V.Ready files) (hreads : V.Reads source files) (hs : V.Valid s)
    (h : (Sandbox.bringInFiles box appRoot (files.map (collected source))).result s = (.ok (), t)) :
    V.Valid t ∧ V.contents t =
      overlay (fun names => V.place (inApp (shown names))) files (V.contents s) := by
  induction files generalizing s with
  | nil =>
    cases h
    exact ⟨hs, rfl⟩
  | cons file files ih =>
    obtain ⟨c, s₁, s₂, hread, hmake, hwrite, h⟩ := bringInFiles_cons_eq_ok h
    obtain rfl := hreads file List.mem_cons_self s c hs hread
    have hfits := hready file List.mem_cons_self
    obtain ⟨hs₁, hshown⟩ : V.Valid s₁ ∧ V.contents s₁ = V.contents s := by
      rcases hmake with rfl | ⟨directory, hdirectory, hmake⟩
      · exact ⟨hs, rfl⟩
      · exact V.created (hfits directory (.inr hdirectory)) hs hmake
    obtain ⟨hs₂, hwritten⟩ := V.written (hfits _ (.inl rfl)) hs₁ hwrite
    obtain ⟨ht, hcontents⟩ := ih (fun other hother => hready other (List.mem_cons_of_mem _ hother))
      (fun other hother => hreads other (List.mem_cons_of_mem _ hother)) hs₂ h
    refine ⟨ht, ?_⟩
    rw [hcontents, hwritten, hshown]
    rfl

theorem exists_overlay_of_bringIn (hs : V.Valid s) (hroot : V.Fits appRoot)
    (hfound : s.1.treeFiles source = .ok found) (hready : V.Ready found)
    (hreads : V.Reads source found) (h : (box.bringIn source appRoot).result s = (.ok n, t)) :
    V.Valid t ∧ ∃ sorted, sorted.Perm found ∧ V.contents t =
      overlay (fun names => V.place (inApp (shown names))) sorted (V.contents s) := by
  obtain ⟨sorted, hperm, hcollect, -⟩ := exists_sorted_of_collect hfound
  rw [Sandbox.bringIn] at h
  obtain ⟨files, s', hlisted, h⟩ := result_bind_eq_ok.1 h
  obtain ⟨hfiles, rfl⟩ := result_onDisk_read.1 hlisted
  cases hcollect.symm.trans hfiles
  obtain ⟨⟨⟩, s₁, hmake, h⟩ := result_bind_eq_ok.1 h
  obtain ⟨⟨⟩, s₂, hlay, h⟩ := result_bind_eq_ok.1 h
  cases h
  obtain ⟨hs₁, hshown⟩ := V.created hroot hs hmake
  obtain ⟨ht, hcontents⟩ := bringInFiles (fun file hfile => hready file (hperm.mem_iff.1 hfile))
    (fun file hfile => hreads file (hperm.mem_iff.1 hfile)) hs₁ hlay
  exact ⟨ht, sorted, hperm, hcontents.trans (by rw [hshown])⟩

theorem bringIn (hs : V.Valid s) (hroot : V.Fits appRoot)
    (hfound : s.1.treeFiles source = .ok found) (hready : V.Ready found)
    (hreads : V.Reads source found)
    (hnodup : (found.map fun file => V.place (inApp (shown file.1))).Nodup)
    (h : (box.bringIn source appRoot).result s = (.ok n, t)) :
    V.Valid t ∧ Laid (fun names => V.place (inApp (shown names))) found (V.contents s)
      (V.contents t) := by
  obtain ⟨ht, sorted, hperm, hcontents⟩ := exists_overlay_of_bringIn hs hroot hfound hready hreads h
  refine ⟨ht, fun k c => ?_⟩
  rw [hcontents]
  refine (laid_overlay ((hperm.map _).nodup_iff.2 hnodup) k c).trans ?_
  simp only [hperm.mem_iff]

end View

/-- The files in the memory of a scripted sandbox, by their paths. The disk is not touched. -/
def Scripted.view (d : Disk) : View scripted String where
  Valid s := s.1 = d
  Fits _ := True
  place := id
  contents s := s.2.memory.readBytes
  created := by
    rintro path s t - hs h
    cases h
    exact ⟨hs, rfl⟩
  written := by
    rintro path c s t - hs h
    cases h
    refine ⟨hs, funext fun other => ?_⟩
    by_cases hother : other = path
    · subst hother
      rw [id, Function.update_self]
      exact MemoryFiles.readBytes_writeFile _ _ _
    · rw [id, Function.update_of_ne hother]
      exact MemoryFiles.readBytes_writeFile_of_ne _ hother _

end AgentChain.Sandbox
