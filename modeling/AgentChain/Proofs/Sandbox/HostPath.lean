import AgentChain.Proofs.Sandbox.Native

/-!
# Where paths of a sandbox are on the host

A path of a native sandbox is mapped to the host by its segments. An absolute path without `..` is
mapped to the root followed by the segments that name something, so it stays below the root, and two
paths are mapped to the same place exactly if they name the same.
-/

namespace AgentChain

open AgentChain.Path (parts)

namespace Path

variable {a name path : String} {names : List String}

theorem parts_join_name (hn : IsName name) : parts (join a name) = parts a ++ [.name name] := by
  have hone : [name].filterMap part? = [.name name] := List.filterMap_cons_some (part?_eq hn)
  -- the segments before the name are those of the path, but for an empty one at the end
  obtain ⟨hparts, hhead⟩ : (segments (join a name)).filterMap part? =
      (segments a).filterMap part? ++ [.name name] ∧
      ((segments (join a name)).head? = some "." ↔ (segments a).head? = some ".") := by
    rw [join_of_relative hn.isAbsolute_eq]
    split
    · next hend =>
      obtain ⟨pre, hpre, hsplit⟩ := exists_segments_of_slash hend
      rw [hsplit, hpre, hn.segments_eq, List.filterMap_append, List.filterMap_append, hone]
      refine ⟨by simp [part?], ?_⟩
      cases pre <;> simp [hn.ne_here]
    · have hsplit : segments (a ++ "/" ++ name) = segments a ++ [name] := by
        rw [← hn.segments_eq]
        exact Text.split_append_slash _ _
      rw [hsplit, List.filterMap_append, hone]
      obtain ⟨s, rest, hs⟩ := List.exists_cons_of_ne_nil (Text.split_ne_nil a)
      exact ⟨rfl, by rw [segments, hs, List.cons_append, List.head?_cons, List.head?_cons]⟩
  rw [parts, parts, isAbsolute_join hn.isAbsolute_eq, hparts]
  simp only [hhead]
  split
  · rfl
  split <;> rfl

theorem parts_under (hnames : ∀ s ∈ names, IsName s) :
    parts (under a names) = parts a ++ names.map .name := by
  induction names generalizing a with
  | nil => simp [under]
  | cons s names ih =>
    obtain ⟨hs, hrest⟩ := List.forall_mem_cons.1 hnames
    exact (ih hrest).trans (by simp [parts_join_name hs])

theorem prefix_under (hnames : ∀ s ∈ names, IsName s) : a.toList <+: (under a names).toList := by
  induction names generalizing a with
  | nil => exact List.prefix_refl _
  | cons s names ih =>
    obtain ⟨hs, hrest⟩ := List.forall_mem_cons.1 hnames
    refine List.IsPrefix.trans ?_ (ih hrest)
    rw [join_of_relative hs.isAbsolute_eq]
    split <;> simp [String.append_assoc]

/-- The segments of a path that lead on from a directory. -/
def moving (path : String) : List String :=
  (segments path).filter fun s => s ≠ "" ∧ s ≠ "."

theorem isName_of_mem_moving (hup : ".." ∉ segments path) : ∀ s ∈ moving path, IsName s := by
  intro s hs
  obtain ⟨hmem, hs⟩ := List.mem_filter.1 hs
  obtain ⟨hempty, hhere⟩ := of_decide_eq_true hs
  exact ⟨hempty, hhere, fun h => hup (h ▸ hmem), no_slash_of_mem_segments hmem⟩

end Path

namespace Sandbox.Native

open AgentChain.Path (under moving)

variable {root path host : String}

theorem descend?_filterMap (directory : String) (segs : List String) :
    descend? directory (segs.filterMap Path.part?) =
      if ".." ∈ segs then none
      else some (under directory (segs.filter fun s => s ≠ "" ∧ s ≠ ".")) := by
  induction segs generalizing directory with
  | nil => rfl
  | cons s segs ih =>
    by_cases hmoves : s ≠ "" ∧ s ≠ "."
    · by_cases hup : s = ".."
      · subst hup
        rfl
      · have hpart : Path.part? s = some (.name s) := by simp [Path.part?, hmoves, hup]
        rw [List.filterMap_cons_some hpart, descend?, ih, List.filter_cons_of_pos (by simp [hmoves])]
        simp [Ne.symm hup, under]
    · obtain rfl | rfl : s = "" ∨ s = "." := by grind
      · simpa [Path.part?] using ih directory
      · simpa [Path.part?] using ih directory

theorem hostPath_eq_ok_iff : hostPath root path = .ok host ↔
    (Path.isAbsolute path ∧ ".." ∉ Path.segments path) ∧ host = under root (moving path) := by
  by_cases habs : Path.isAbsolute path
  · have hdescend : descend? root (parts path) =
        if ".." ∈ Path.segments path then none else some (under root (moving path)) := by
      rw [parts, if_pos habs]
      exact descend?_filterMap root (Path.segments path)
    rw [hostPath, if_pos habs, hdescend]
    by_cases hup : ".." ∈ Path.segments path
    · simp [hup]
    · simp [habs, hup, eq_comm (a := host)]
  · simp [hostPath, habs]

/-- A path of a sandbox is mapped to the host exactly if it is absolute and no segment is `..`. It is
then mapped to the root followed by its segments but for empty ones and `.`: the host path starts
with the root, as a text and as a path, and nothing after the root leads up. Two such paths are
mapped to the same, as texts and as paths, exactly if these segments are the same. -/
theorem hostPath_exact (root : String) :
    (∀ path, (∃ host, hostPath root path = .ok host) ↔
      Path.isAbsolute path = true ∧ ".." ∉ Path.segments path) ∧
    (∀ path host, hostPath root path = .ok host →
      host = under root (moving path) ∧ root.toList <+: host.toList ∧
        parts host = parts root ++ (moving path).map .name) ∧
    ∀ path host path' host', hostPath root path = .ok host → hostPath root path' = .ok host' →
      (host = host' ↔ moving path = moving path') ∧
        (parts host = parts host' ↔ moving path = moving path') := by
  have hparts : ∀ {path host}, hostPath root path = .ok host →
      parts host = parts root ++ (moving path).map .name := by
    intro path host h
    obtain ⟨⟨-, hup⟩, rfl⟩ := hostPath_eq_ok_iff.1 h
    exact Path.parts_under (Path.isName_of_mem_moving hup)
  refine ⟨fun path => by simp [hostPath_eq_ok_iff], fun path host h => ?_,
    fun path host path' host' h h' => ?_⟩
  · obtain ⟨⟨-, hup⟩, rfl⟩ := hostPath_eq_ok_iff.1 h
    exact ⟨rfl, Path.prefix_under (Path.isName_of_mem_moving hup), hparts h⟩
  · have hsame : parts host = parts host' ↔ moving path = moving path' := by
      rw [hparts h, hparts h', List.append_cancel_left_eq]
      exact List.map_inj_right fun _ _ => Path.Part.name.inj
    refine ⟨⟨fun heq => hsame.1 (congrArg parts heq), fun heq => ?_⟩, hsame⟩
    rw [(hostPath_eq_ok_iff.1 h).2, (hostPath_eq_ok_iff.1 h').2, heq]

end Sandbox.Native

end AgentChain
