import AgentChain.FileTree.Collection
import AgentChain.Proofs.FileTree.Operations

/-!
# The files of a tree

The regular files of a tree are collected with routes that lead to them. On a sound disk such a
route leads to the file that it was collected for, unless it leads nowhere because it is too long or
because a directory on the way may not be entered.
-/

namespace AgentChain

namespace Route

theorem bytes_concat (r : Route) (names : List Name) (n : Name) :
    ({ r with names := r.names ++ (names ++ [n]) } : Route).bytes =
      Name.below ({ r with names := r.names ++ names } : Route).bytes n := by
  rw [bytes, ← List.append_assoc, List.foldl_append]
  rfl

end Route

namespace Disk

variable {d : Disk} {r : Route} {P Q : Place} {n : Name} {names : List Name} {b c : Bytes}
  {found : List (List Name × Bytes)} {file : List Name × Bytes}

/-! ### Routes with names -/

theorem leadsTo_of_resolve (h : d.resolve true r = .ok (.present P .directory)) :
    d.LeadsTo r.bytes P := by
  by_cases hne : r.bytes = []
  · simp [resolve, hne] at h
  · rw [resolve_eq hne (followable_of_resolve h), walkLinks_eq_present_directory_iff] at h
    obtain ⟨left, harr⟩ := h
    exact ⟨left, harr.of_filter_eq (steps_filter _)⟩

/-- A route to something in a tree leads there through the directories of the tree, if it leads
anywhere. -/
theorem Sound.eq_of_leadsTo (hd : d.Sound) (hP : d.LeadsTo r.bytes P)
    (hdir : d.get? (P ++ names) = some .directory)
    (h : d.LeadsTo ({ r with names := r.names ++ names } : Route).bytes Q) : Q = P ++ names := by
  induction names using List.reverseRecOn generalizing Q with
  | nil =>
    rw [List.append_nil] at h ⊢
    exact h.unique hP
  | append_singleton names n ih =>
    rw [← List.append_assoc] at hdir ⊢
    obtain ⟨hn, habove⟩ := hd.of_get?_concat hdir
    rw [Route.bytes_concat] at h
    obtain ⟨mid, M, hM, hlast⟩ := h.exists_before hn.ne_nil hn.no_slash
    obtain rfl := ih habove hM
    rw [walkLinks_name hn.isStep (.inr fun t => by rw [hdir]; simp), lookup, hdir] at hlast
    split at hlast
    · cases hlast
    · cases hlast
      rfl

theorem Sound.leadsTo_names (hd : d.Sound) (hP : d.LeadsTo r.bytes P)
    (hdir : d.get? (P ++ names) = some .directory) (hopen : ∀ q, P <+: q → q ∉ d.closed) :
    d.LeadsTo ({ r with names := r.names ++ names } : Route).bytes (P ++ names) := by
  induction names using List.reverseRecOn with
  | nil => simpa using hP
  | append_singleton names n ih =>
    rw [← List.append_assoc] at hdir
    obtain ⟨hn, habove⟩ := hd.of_get?_concat hdir
    rw [Route.bytes_concat, ← List.append_assoc]
    exact (ih habove).below hn (hopen _ (List.prefix_append P names)) hdir

theorem Sound.eq_of_readBytes (hd : d.Sound) (hP : d.LeadsTo r.bytes P)
    (hne : names ≠ []) (hfile : d.get? (P ++ names) = some (.file c))
    (h : d.readBytes { r with names := r.names ++ names } = .ok c') : c' = c := by
  obtain ⟨p, hp⟩ := readBytes_eq_ok.1 h
  obtain ⟨names, n, rfl⟩ := List.eq_nil_or_concat' names |>.resolve_left hne
  rw [← List.append_assoc] at hfile
  obtain ⟨hn, habove⟩ := hd.of_get?_concat hfile
  obtain ⟨mid, M, hM, hlast⟩ := exists_leadsTo (Route.bytes_concat r names n) hn.ne_nil hn.no_slash hp
  obtain rfl := hd.eq_of_leadsTo hP habove hM
  rw [walkLinks_name hn.isStep (.inr fun t => by rw [hfile]; simp), lookup, hfile] at hlast
  split at hlast
  · cases hlast
  · cases hlast
    rfl

theorem Sound.readBytes_names (hd : d.Sound) (hP : d.LeadsTo r.bytes P) (hne : names ≠ [])
    (hfile : d.get? (P ++ names) = some (.file c)) (hopen : ∀ q, P <+: q → q ∉ d.closed)
    (hr : Followable ({ r with names := r.names ++ names } : Route).bytes) :
    d.readBytes { r with names := r.names ++ names } = .ok c := by
  obtain ⟨names, n, rfl⟩ := List.eq_nil_or_concat' names |>.resolve_left hne
  rw [← List.append_assoc] at hfile
  obtain ⟨hn, habove⟩ := hd.of_get?_concat hfile
  have hpoints : d.Points { r with names := r.names ++ (names ++ [n]) } (P ++ names) n :=
    ⟨hn, hr, _, Route.bytes_concat r names n, hd.leadsTo_names hP habove hopen⟩
  rw [readBytes_eq_ok, hpoints.resolve_true (fun t => by rw [hfile]; simp), lookup,
    if_neg (hopen _ (List.prefix_append P names)), hfile]
  exact ⟨_, rfl⟩

/-! ### Collecting -/

/-- The regular file that something in a tree is, if it is one. -/
def fileOf? : List Name × Entry → Option (List Name × Bytes)
  | (names, .file c) => some (names, c)
  | _ => none

/-- The regular files of a tree by the names that lead to them from its top, with their contents. -/
def treeFiles (d : Disk) (r : Route) : Except Fault (List (List Name × Bytes)) :=
  match d.resolve true r with
  | .ok (.present place .directory) => .ok ((d.below place).filterMap fileOf?)
  | .ok (.present _ (.file c)) =>
    match d.look? r with
    | some (.symlink _) => .ok []
    | _ => .ok [([], c)]
  | .ok (.present _ (.symlink _)) => .ok []
  | .ok (.vacant _ _) => .error .notFound
  | .error f => .error f

/-- A file of a tree as it is collected. -/
def collected (r : Route) (file : List Name × Bytes) : Collected where
  name := shown file.1
  path := { r with names := r.names ++ file.1 }

theorem collect_eq (d : Disk) (r : Route) : d.collect r =
    (d.treeFiles r).map fun found =>
      (found.map (collected r)).mergeSort fun a b => decide (a.name ≤ b.name) := by
  rw [collect, treeFiles]
  rcases d.resolve true r with fault | ⟨P, e⟩ | ⟨P, s⟩
  · rfl
  · cases e with
    | directory =>
      simp only [Except.map, filesBelow, List.map_filterMap]
      congr 3
      funext e
      rcases e with ⟨names, _ | _ | _⟩ <;> rfl
    | file c =>
      rcases d.look? r with _ | _ | _ | _ <;> simp [Except.map, collected, shown, Text.join]
    | symlink t => simp [Except.map]
  · rfl

theorem Sound.mem_below_iff (hd : d.Sound) :
    (names, e) ∈ d.below P ↔ names ≠ [] ∧ d.get? (P ++ names) = some e := by
  rw [below, List.mem_filterMap]
  constructor
  · rintro ⟨⟨q, e'⟩, hmem, hq⟩
    split at hq
    · next hcond =>
      simp only [Bool.and_eq_true, List.isPrefixOf_iff_prefix, decide_eq_true_eq] at hcond
      obtain ⟨⟨rest, rfl⟩, hlength⟩ := hcond
      cases hq
      have hne : rest ≠ [] := by
        rintro rfl
        simp at hlength
      rw [List.drop_left]
      exact ⟨hne, (get?_eq_some_iff hd.nodup (by simp [hne])).2 hmem⟩
    · cases hq
  · rintro ⟨hne, hget⟩
    refine ⟨(P ++ names, e), mem_entries_of_get? (by simp [hne]) hget, ?_⟩
    have hlength : P.length < (P ++ names).length := by
      simpa using List.length_pos_iff.2 hne
    rw [if_pos]
    · simp
    · simpa [List.isPrefixOf_iff_prefix] using List.length_pos_iff.2 hne

theorem Sound.nodup_below (hd : d.Sound) (P : Place) : ((d.below P).map (·.1)).Nodup := by
  have hplaces : ((d.below P).map fun e => P ++ e.1).Sublist d.places := by
    rw [below, places, List.map_filterMap]
    generalize d.entries = entries
    induction entries with
    | nil => simp
    | cons e entries ih =>
      rw [List.filterMap_cons, List.map_cons]
      split
      · exact ih.cons _
      · next q hq =>
        split at hq
        · next hcond =>
          simp only [Bool.and_eq_true, List.isPrefixOf_iff_prefix, decide_eq_true_eq] at hcond
          obtain ⟨⟨rest, hrest⟩, -⟩ := hcond
          simp only [Option.map_some, Option.some.injEq] at hq
          rw [← hrest, List.drop_left, hrest] at hq
          exact hq ▸ ih.cons_cons _
        · cases hq
  refine List.Nodup.of_map (P ++ ·) ?_
  rw [List.map_map]
  exact hd.nodup.sublist hplaces

theorem sublist_map_fileOf? (entries : List (List Name × Entry)) :
    ((entries.filterMap fileOf?).map (·.1)).Sublist (entries.map (·.1)) := by
  induction entries with
  | nil => simp
  | cons e entries ih =>
    rcases e with ⟨names, _ | _ | _⟩
    · exact ih.cons_cons names
    · exact ih.cons names
    · exact ih.cons names

theorem Sound.nodup_treeFiles (hd : d.Sound)
    (h : d.treeFiles r = .ok found) : (found.map (·.1)).Nodup := by
  rw [treeFiles] at h
  split at h
  · cases h
    exact (hd.nodup_below _).sublist (sublist_map_fileOf? _)
  · split at h <;> cases h <;> simp
  · cases h
    simp
  all_goals cases h

theorem Sound.mem_treeFiles_iff (hd : d.Sound)
    (hP : d.resolve true r = .ok (.present P .directory)) (h : d.treeFiles r = .ok found) :
    (names, c) ∈ found ↔ names ≠ [] ∧ d.get? (P ++ names) = some (.file c) := by
  rw [treeFiles, hP] at h
  cases h
  rw [List.mem_filterMap, ← hd.mem_below_iff]
  constructor
  · rintro ⟨⟨names', e⟩, hmem, he⟩
    cases e <;> cases he
    exact hmem
  · exact fun hmem => ⟨_, hmem, rfl⟩

theorem Sound.exists_get?_of_treeFiles (hd : d.Sound)
    (h : d.treeFiles r = .ok found) (hfile : (names, c) ∈ found) :
    ∃ P e, d.resolve true r = .ok (.present P e) ∧ d.get? (P ++ names) = some (.file c) := by
  rcases hres : d.resolve true r with f | ⟨P, e⟩ | ⟨P, slash⟩
  · simp [treeFiles, hres] at h
  · refine ⟨P, e, rfl, ?_⟩
    cases e with
    | directory => exact ((hd.mem_treeFiles_iff hres h).1 hfile).2
    | file c' =>
      rw [treeFiles, hres] at h
      simp only at h
      split at h
      · cases h
        cases hfile
      · cases h
        cases List.mem_singleton.1 hfile
        rw [List.append_nil]
        exact hd.get?_of_resolve hres (by simp)
    | symlink t =>
      rw [treeFiles, hres] at h
      cases h
      cases hfile
  · simp [treeFiles, hres] at h

/-- What is read through the route of a collected file is the contents that it was collected with, as
long as directories and links and the files of the tree are kept. -/
theorem Sound.eq_of_readBytes_kept (hd : d.Sound) (hd' : d'.Sound) (hk : d.Keeps d')
    (hhome : d'.home = d.home) (hfiles : ∀ P e, d.resolve true r = .ok (.present P e) →
      ∀ p c, P <+: p → d.get? p = some (.file c) → d'.get? p = some (.file c))
    (hfound : d.treeFiles r = .ok found)
    (hfile : file ∈ found) (h : d'.readBytes (collected r file).path = .ok c) : c = file.2 := by
  obtain ⟨names, c'⟩ := file
  rcases hres : d.resolve true r with fault | ⟨P, e⟩ | ⟨P, s⟩
  · simp [treeFiles, hres] at hfound
  · cases e with
    | directory =>
      obtain ⟨hne, hget⟩ := (hd.mem_treeFiles_iff hres hfound).1 hfile
      exact hd'.eq_of_readBytes ((leadsTo_of_resolve hres).mono hk hhome) hne
        (hfiles P _ hres _ _ (List.prefix_append P names) hget) h
    | file c'' =>
      have hmem : (names, c') = ([], c'') := by
        rw [treeFiles, hres] at hfound
        simp only at hfound
        split at hfound
        · cases hfound
          cases hfile
        · cases hfound
          exact List.mem_singleton.1 hfile
      cases hmem
      have hthere := hk.resolve_of_file hhome
        (hfiles P _ hres P c' List.prefix_rfl (hd.get?_of_resolve hres (by simp))) hres (.inr ⟨c', rfl⟩)
      rw [collected, List.append_nil, readBytes_eq_ok] at h
      obtain ⟨p, hp⟩ := h
      rw [hthere] at hp
      cases hp
      rfl
    | symlink t =>
      simp only [treeFiles, hres, Except.ok.injEq] at hfound
      simp [← hfound] at hfile
  · simp [treeFiles, hres] at hfound

theorem Sound.eq_of_readBytes_collected (hd : d.Sound)
    (hfound : d.treeFiles r = .ok found) (hfile : file ∈ found)
    (h : d.readBytes (collected r file).path = .ok c) : c = file.2 :=
  hd.eq_of_readBytes_kept hd ⟨fun _ h => h, fun _ _ h => h, fun _ h => h⟩ rfl
    (fun _ _ _ _ _ _ h => h) hfound hfile h

end Disk

end AgentChain
