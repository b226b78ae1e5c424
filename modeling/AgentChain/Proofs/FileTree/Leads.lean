import AgentChain.Proofs.FileTree.Path
import AgentChain.Proofs.FileTree.Walk

/-!
# Where written paths lead

What a name after a path leads to is found by looking the name up in the directory that the path
leads to.
-/

namespace AgentChain.Disk

open Name (steps)
open Name (slash below isAbsolute_below isAbsolute)

variable {d : Disk} {f : Bool} {l left : Nat} {P : Place} {n : Name} {b : Bytes} {r : Route}
  {t : Target} {p : Place} {d' : Disk}

/-! ### Leading to a directory -/

/-- The directory that names after a path are looked up in. -/
def LeadsTo (d : Disk) (path : Bytes) (P : Place) : Prop :=
  ∃ left, d.Arrives linkLimit (startIn d.home path) (steps path) left P

theorem steps_filter (path : Bytes) :
    (steps path).filter (!·.isEmpty) = (Bytes.split slash path).filter (!·.isEmpty) := by
  rw [steps, List.filter_filter]
  simp

/-- A path that can be followed at all. -/
structure Followable (path : Bytes) : Prop where
  no_zero : 0 ∉ path
  length_lt : path.length < pathLimit

theorem Followable.of_below (h : Followable (below path n)) : Followable path where
  no_zero hzero := h.no_zero (Name.mem_below (.inl hzero))
  length_lt := Nat.lt_of_le_of_lt
    (Nat.le_trans (Nat.le_add_right _ _) (Name.length_le_length_below path n)) h.length_lt

theorem resolve_eq (hne : r.bytes ≠ []) (h : Followable r.bytes) : d.resolve f r =
      d.walkLinks f linkLimit (startIn d.home r.bytes) (Bytes.split slash r.bytes) := by
  rw [resolve]
  simp [hne, h.no_zero, Nat.not_le.2 h.length_lt, startIn]

theorem followable_of_resolve (h : d.resolve f r = .ok t) : Followable r.bytes := by
  rw [resolve] at h
  split at h
  · cases h
  split at h
  · cases h
  split at h
  · cases h
  · next hzero hlength => exact ⟨by simpa using hzero, Nat.not_le.1 hlength⟩

theorem ne_nil_of_resolve (h : d.resolve f r = .ok t) : r.bytes ≠ [] := by
  intro hnil
  simp [resolve, hnil] at h

/-- A route through all links leads to the same when a link at its end is not followed, or it leads to
such a link. -/
theorem resolve_false_cases (h : d.resolve true r = .ok t) :
    d.resolve false r = .ok t ∨ ∃ p s, d.resolve false r = .ok (.present p (.symlink s)) := by
  have hne := ne_nil_of_resolve h
  have hr := followable_of_resolve h
  rw [resolve_eq hne hr] at h ⊢
  exact walkLinks_false_cases h

theorem exists_present_of_resolve (h : d.resolve true r = .ok (.present p e)) :
    ∃ q e', d.resolve false r = .ok (.present q e') := by
  rcases resolve_false_cases h with h | ⟨q, s, h⟩ <;> exact ⟨_, _, h⟩

/-- Where a route led to a file, a link or a place for something new, it leads to what is there
now. -/
theorem Keeps.resolve_of_spot
    (hk : d.Keeps d') (hhome : d'.home = d.home) (hf : f = true → f' = true)
    (h : d.resolve f r = .ok t) (ht : t.IsSpot p) (ht' : t'.Stands d' f' p) :
    d'.resolve f' r = .ok t' := by
  have hne := ne_nil_of_resolve h
  have hfollowable := followable_of_resolve h
  rw [resolve_eq hne hfollowable] at h ⊢
  rw [hhome]
  exact hk.walkLinks_of_spot hf h ht ht'

theorem Keeps.resolve_of_file
    (hk : d.Keeps d') (hhome : d'.home = d.home) (hp : d'.get? p = some (.file c))
    (h : d.resolve true r = .ok t) (ht : t = .vacant p false ∨ ∃ c', t = .present p (.file c')) :
    d'.resolve true r = .ok (.present p (.file c)) := by
  have hspot : t.IsSpot p := by
    rcases ht with rfl | ⟨c', rfl⟩
    · exact ⟨rfl, rfl⟩
    · exact ⟨rfl, by simp⟩
  exact hk.resolve_of_spot hhome id h hspot ⟨rfl, hp, by simp, by simp⟩

theorem Arrives.resolve_below (harr : d.Arrives linkLimit (startIn d.home b) (steps b) left P)
    (hr : r.bytes = Name.below b n) (hn : n.Proper) (h : Followable r.bytes) :
    d.resolve f r = d.walkLinks f left P [n] := by
  obtain ⟨pre, hsplit, hb⟩ := Name.exists_split_below b n
  rw [Bytes.split_of_not_mem hn.no_slash] at hsplit
  have hpre : d.Arrives linkLimit (startIn d.home b) pre left P := by
    refine harr.of_filter_eq ?_
    rw [steps_filter]
    rcases hb with hb | hb <;> simp [hb]
  rw [resolve_eq (hr ▸ Name.below_ne_nil hn.ne_nil) h, hr, hsplit, startIn,
    isAbsolute_below hn.isAbsolute_eq]
  exact hpre.walkLinks_append [n] (.inl (by simp))

theorem exists_leadsTo (hr : r.bytes = below b n) (hne : n ≠ [])
    (hslash : slash ∉ n) (h : d.resolve f r = .ok t) :
    ∃ left P, d.LeadsTo b P ∧ d.walkLinks f left P [n] = .ok t := by
  obtain ⟨pre, hsplit, hb⟩ := Name.exists_split_below b n
  rw [Bytes.split_of_not_mem hslash] at hsplit
  rw [resolve_eq (hr ▸ Name.below_ne_nil hne) (followable_of_resolve h), hr, hsplit, startIn,
    isAbsolute_below (Name.isAbsolute_of_not_mem hslash)] at h
  obtain ⟨left, P, harr, hrest⟩ := exists_arrives hne h
  refine ⟨left, P, ⟨left, harr.of_filter_eq ?_⟩, hrest⟩
  rw [steps_filter]
  rcases hb with hb | hb <;> simp [hb]

theorem LeadsTo.walkLinks_eq (h : d.LeadsTo b P) :
    d.walkLinks true linkLimit (startIn d.home b) (steps b) = .ok (.present P .directory) :=
  walkLinks_eq_present_directory_iff.2 h

theorem LeadsTo.resolve_eq (h : d.LeadsTo r.bytes P) (hne : r.bytes ≠ [])
    (hr : Followable r.bytes) : d.resolve true r = .ok (.present P .directory) := by
  obtain ⟨left, harr⟩ := h
  rw [Disk.resolve_eq hne hr, walkLinks_eq_present_directory_iff]
  exact ⟨left, harr.of_filter_eq (steps_filter _).symm⟩

theorem LeadsTo.unique (hP : d.LeadsTo b P) (hQ : d.LeadsTo b Q) : P = Q := by
  have h := hP.walkLinks_eq.symm.trans hQ.walkLinks_eq
  cases h
  rfl

theorem LeadsTo.mono (h : d.LeadsTo b P) (hk : d.Keeps d') (hhome : d'.home = d.home) :
    d'.LeadsTo b P := by
  obtain ⟨left, harr⟩ := h
  exact ⟨left, hhome.symm ▸ harr.mono hk⟩

theorem LeadsTo.of_here (h : d.LeadsTo b P) (habs : isAbsolute b' = isAbsolute b)
    (hsteps : steps b = steps b' ++ List.replicate k Name.here) : d.LeadsTo b' P := by
  obtain ⟨left, harr⟩ := h
  rw [hsteps, startIn, ← habs] at harr
  exact harr.exists_of_here

/-- A path with the name of a directory after it. -/
theorem LeadsTo.below (h : d.LeadsTo b P) (hn : n.Proper) (hclosed : P ∉ d.closed)
    (hdir : d.get? (P ++ [n]) = some .directory) : d.LeadsTo (below b n) (P ++ [n]) := by
  obtain ⟨left, harr⟩ := h
  refine ⟨left, ?_⟩
  rw [startIn, isAbsolute_below hn.isAbsolute_eq, Name.steps_below, hn.steps_eq]
  exact harr.append (.down hclosed hn.isStep hdir (.nil _ _))

theorem LeadsTo.exists_before (h : d.LeadsTo (Name.below b n) Q) (hne : n ≠ [])
    (hslash : Name.slash ∉ n) :
    ∃ mid M, d.LeadsTo b M ∧ d.walkLinks true mid M [n] = .ok (.present Q .directory) := by
  obtain ⟨left, harr⟩ := h
  rw [startIn, isAbsolute_below (Name.isAbsolute_of_not_mem hslash), Name.steps_below,
    Name.steps_of_not_mem hne hslash] at harr
  obtain ⟨mid, M, hM, hlast⟩ := harr.exists_before hne
  exact ⟨mid, M, ⟨mid, hM⟩, hlast⟩

theorem LeadsTo.exists_of_prefix (h : d.LeadsTo b P)
    (habs : isAbsolute b' = isAbsolute b) (hsteps : steps b' <+: steps b) :
    ∃ Q, d.LeadsTo b' Q := by
  obtain ⟨left, harr⟩ := h
  obtain ⟨more, hmore⟩ := hsteps
  rw [← hmore, startIn, ← habs] at harr
  cases more with
  | nil =>
    rw [List.append_nil] at harr
    exact ⟨P, left, harr⟩
  | cons n more =>
    have hn : n ∈ steps b := hmore ▸ List.mem_append_right _ List.mem_cons_self
    obtain ⟨mid, M, hM, -⟩ := harr.exists_before (by simpa using (List.mem_filter.1 hn).2)
    exact ⟨M, mid, hM⟩

/-! ### Names in a directory -/

/-- What a name in a directory leads to, where a link stays a link. -/
def lookup (d : Disk) (P : Place) (n : Name) : Except Fault Target :=
  if P ∈ d.closed then .error .denied
  else match d.get? (P ++ [n]) with
    | some e => .ok (.present (P ++ [n]) e)
    | none =>
      if d.get? P = some .directory then .ok (.vacant (P ++ [n]) false) else .error .notFound

theorem walkLinks_name (hn : n.IsStep)
    (h : f = false ∨ ∀ t, d.get? (P ++ [n]) ≠ some (.symlink t)) :
    d.walkLinks f l P [n] = d.lookup P n := by
  rw [lookup]
  by_cases hclosed : P ∈ d.closed
  · rw [if_pos hclosed, walkLinks_closed hn.ne_nil hclosed]
  · rw [if_neg hclosed, walkLinks_step hclosed hn]
    cases hget : d.get? (P ++ [n]) with
    | none => simp
    | some e =>
      cases e with
      | directory => simp
      | file c => simp
      | symlink t =>
        rcases h with h | h
        · simp [h]
        · exact absurd hget (h t)

/-- A route that can be followed ends in a name, and leads to a directory before that. -/
structure Points (d : Disk) (r : Route) (P : Place) (n : Name) : Prop where
  proper : n.Proper
  followable : Followable r.bytes
  leads : ∃ b, r.bytes = below b n ∧ d.LeadsTo b P

namespace Points

variable {r : Route}

theorem exists_resolve (h : d.Points r P n) : ∃ left, d.resolve f r = d.walkLinks f left P [n] := by
  obtain ⟨b, hr, hP⟩ := h.leads
  exact hP.imp fun _ harr => harr.resolve_below hr h.proper h.followable

theorem resolve_false (h : d.Points r P n) : d.resolve false r = d.lookup P n := by
  obtain ⟨left, hleft⟩ := h.exists_resolve (f := false)
  rw [hleft, walkLinks_name h.proper.isStep (.inl rfl)]

theorem resolve_true (h : d.Points r P n) (hlink : ∀ t, d.get? (P ++ [n]) ≠ some (.symlink t)) :
    d.resolve true r = d.lookup P n := by
  obtain ⟨left, hleft⟩ := h.exists_resolve (f := true)
  rw [hleft, walkLinks_name h.proper.isStep (.inr hlink)]

end Points

theorem exists_points (hr : r.bytes = below b n) (hn : n.Proper)
    (h : d.resolve f r = .ok t) : ∃ P, d.LeadsTo b P ∧ d.Points r P n := by
  obtain ⟨left, P, hP, -⟩ := exists_leadsTo hr hn.ne_nil hn.no_slash h
  exact ⟨P, hP, hn, followable_of_resolve h, b, hr, hP⟩

end AgentChain.Disk
