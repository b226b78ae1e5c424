import AgentChain.Proofs.FileTree.Changes

/-!
# Names in a directory

Most operations are given a path with a name after it. What they do to a disk is said here in terms
of the directory that the path leads to.
-/

namespace AgentChain.Disk

open Bytes (ofText)
open AgentChain.Path (join)

variable {d d' : Disk} {f : Bool} {r : Route} {p P : Place} {n m : Name} {a name : String}
  {b c : Bytes} {e : Entry} {t : Target}

theorem lookup_eq_ok (h : d.lookup P n = .ok t) :
    (∃ e, d.get? (P ++ [n]) = some e ∧ t = .present (P ++ [n]) e) ∨
      d.get? (P ++ [n]) = none ∧ d.get? P = some .directory ∧ t = .vacant (P ++ [n]) false := by
  rw [lookup] at h
  split at h
  · cases h
  split at h
  · next e he =>
    cases h
    exact .inl ⟨e, he, rfl⟩
  · next hnone =>
    split at h
    · next hdir =>
      cases h
      exact .inr ⟨hnone, hdir, rfl⟩
    · cases h

theorem resolve_of_not_followable (hne : r.bytes ≠ []) (hr : ¬ Followable r.bytes) :
    ∃ e, d.resolve f r = .error e ∧ e ≠ .notFound := by
  rw [resolve, if_neg (fun h => hne (List.isEmpty_iff.1 h))]
  split
  · exact ⟨_, rfl, by simp⟩
  split
  · exact ⟨_, rfl, by simp⟩
  · next hzero hlength => exact absurd ⟨by simpa using hzero, Nat.not_le.1 hlength⟩ hr

theorem exists_resolve_of_isDirectory (h : d.isDirectory r) :
    ∃ p, d.resolve true r = .ok (.present p .directory) := by
  rw [isDirectory, follow?] at h
  rcases hres : d.resolve true r with fault | ⟨p, e⟩ | ⟨p, s⟩
  · simp [hres] at h
  · cases e <;> simp_all
  · simp [hres] at h

/-- A route that ends in a name and leads to a directory before that. -/
structure Aims (d : Disk) (r : Route) (P : Place) (n : Name) : Prop where
  proper : n.Proper
  leads : ∃ b, r.bytes = Name.below b n ∧ d.LeadsTo b P

theorem aims_join (hn : Name.Proper (ofText name)) (hP : d.LeadsTo (ofText a) P) :
    d.Aims (join a name) P (ofText name) := by
  refine ⟨hn, ofText a, ?_, hP⟩
  refine Path.ofText_join ?_
  rw [← Path.isAbsolute_ofText]
  exact hn.isAbsolute_eq

namespace Aims

section

variable (h : d.Aims r P n)
include h

theorem bytes_ne_nil : r.bytes ≠ [] := by
  obtain ⟨b, hr, -⟩ := h.leads
  rw [hr]
  exact Name.below_ne_nil h.proper.ne_nil

theorem points (hr : Followable r.bytes) : d.Points r P n :=
  ⟨h.proper, hr, h.leads⟩

section Last

variable (hlink : f = false ∨ ∀ t, d.get? (P ++ [n]) ≠ some (.symlink t))
include hlink

theorem resolve_cases :
    (Followable r.bytes ∧ d.resolve f r = d.lookup P n) ∨
      ∃ e, d.resolve f r = .error e ∧ e ≠ .notFound := by
  by_cases hr : Followable r.bytes
  · obtain ⟨left, hleft⟩ := (h.points hr).exists_resolve (f := f)
    exact .inl ⟨hr, by rw [hleft, walkLinks_name h.proper.isStep hlink]⟩
  · exact .inr (resolve_of_not_followable h.bytes_ne_nil hr)

theorem lookup_of_resolve (ht : d.resolve f r = .ok t) : d.lookup P n = .ok t := by
  rcases h.resolve_cases hlink with ⟨-, heq⟩ | ⟨e, heq, -⟩
  · rwa [heq] at ht
  · rw [heq] at ht
    cases ht

theorem of_present (hp : d.resolve f r = .ok (.present p e)) :
    p = P ++ [n] ∧ d.get? (P ++ [n]) = some e := by
  rcases lookup_eq_ok (h.lookup_of_resolve hlink hp) with ⟨e', hget, ht⟩ | ⟨-, -, ht⟩ <;> cases ht
  exact ⟨rfl, hget⟩

theorem of_vacant
    (hp : d.resolve f r = .ok (.vacant p s)) : p = P ++ [n] ∧ d.get? (P ++ [n]) = none := by
  rcases lookup_eq_ok (h.lookup_of_resolve hlink hp) with ⟨e', -, ht⟩ | ⟨hnone, -, ht⟩ <;> cases ht
  exact ⟨rfl, hnone⟩

end Last

theorem opened (ht : d.resolve f r = .ok t) : P ∉ d.closed := by
  intro hclosed
  obtain ⟨left, hleft⟩ := (h.points (followable_of_resolve ht)).exists_resolve (f := f)
  rw [hleft, walkLinks_closed h.proper.ne_nil hclosed] at ht
  cases ht

/-! ### Operations -/

theorem writePlace_eq (hlink : ∀ t, d.get? (P ++ [n]) ≠ some (.symlink t))
    (hp : d.writePlace r = .ok p) : p = P ++ [n] := by
  rcases writePlace_eq_ok hp with ⟨c, hres⟩ | hres
  · exact (h.of_present (.inr hlink) hres).1
  · exact (h.of_vacant (.inr hlink) hres).1

theorem createDirectory_eq_ok (hd : d.createDirectory r = .ok d') :
    d.get? (P ++ [n]) = none ∧ d' = d.put (P ++ [n]) .directory := by
  obtain ⟨p, s, hres, rfl⟩ := Disk.createDirectory_eq_ok hd
  obtain ⟨rfl, hnone⟩ := h.of_vacant (.inl rfl) hres
  exact ⟨hnone, rfl⟩

theorem removeFile_eq_ok (hd : d.removeFile r = .ok d') :
    ∃ e, d.get? (P ++ [n]) = some e ∧ e ≠ .directory ∧ d' = d.erase (P ++ [n]) := by
  obtain ⟨p, e, hres, he, rfl⟩ := Disk.removeFile_eq_ok hd
  obtain ⟨rfl, hget⟩ := h.of_present (.inl rfl) hres
  exact ⟨e, hget, he, rfl⟩

theorem free_of_removeFile (hd : d.removeFile r = .error .notFound) : d.get? (P ++ [n]) = none := by
  rcases h.resolve_cases (f := false) (.inl rfl) with ⟨-, heq⟩ | ⟨e, heq, he⟩
  · cases hget : d.get? (P ++ [n]) with
    | none => rfl
    | some e =>
      rw [removeFile, heq, lookup, hget] at hd
      by_cases hclosed : P ∈ d.closed
      · simp [hclosed] at hd
      · cases e <;> simp [hclosed] at hd
  · rw [removeFile, heq] at hd
    cases hd
    exact absurd rfl he

theorem removeTree_eq_ok (hd : d.removeTree r = .ok d') :
    (d.get? (P ++ [n]) = some .directory ∧ d' = d.eraseTree (P ++ [n])) ∨
      ∃ t, d.get? (P ++ [n]) = some (.symlink t) ∧ d' = d.erase (P ++ [n]) := by
  obtain ⟨p, hres, rfl⟩ | ⟨p, t, hres, rfl⟩ := Disk.removeTree_eq_ok hd
  · obtain ⟨rfl, hget⟩ := h.of_present (.inl rfl) hres
    exact .inl ⟨hget, rfl⟩
  · obtain ⟨rfl, hget⟩ := h.of_present (.inl rfl) hres
    exact .inr ⟨t, hget, rfl⟩

theorem readBytes_eq_ok (hlink : ∀ t, d.get? (P ++ [n]) ≠ some (.symlink t))
    (hc : d.readBytes r = .ok c) : d.get? (P ++ [n]) = some (.file c) := by
  obtain ⟨p, hp⟩ := Disk.readBytes_eq_ok.1 hc
  exact (h.of_present (.inr hlink) hp).2

theorem get?_of_isDirectory (hlink : ∀ t, d.get? (P ++ [n]) ≠ some (.symlink t)) (hdir : d.isDirectory r) :
    d.get? (P ++ [n]) = some .directory := by
  obtain ⟨p, hres⟩ := exists_resolve_of_isDirectory hdir
  exact (h.of_present (.inr hlink) hres).2

theorem exists?_eq_false (hfree : d.get? (P ++ [n]) = none) : d.exists? r = false := by
  rw [exists?, follow?]
  rcases hres : d.resolve true r with fault | ⟨p, e⟩ | ⟨p, s⟩
  · rfl
  · cases hfree.symm.trans (h.of_present (.inr (by simp [hfree])) hres).2
  · rfl

end

theorem rename_eq_ok (hs : d.Aims source P n) (h : d.Aims r P m) (hne : n ≠ m)
    (halone : d.Alone (P ++ [n])) (hd : d.rename source r = .ok d') :
    ∃ e, d.get? (P ++ [n]) = some e ∧ e ≠ .directory ∧ d' = d.move (P ++ [n]) (P ++ [m]) e := by
  obtain ⟨q, e, hq, he, hcases⟩ := Disk.rename_eq_ok hd
  obtain ⟨rfl, hget⟩ := hs.of_present (.inl rfl) hq
  refine ⟨e, hget, he, ?_⟩
  rcases hcases with ⟨p, e', hp, -, rfl⟩ | ⟨p, hp, rfl⟩
  · obtain ⟨rfl, -⟩ := h.of_present (.inl rfl) hp
    rw [if_neg]
    rw [halone.areTwins_iff]
    simpa using hne
  · obtain ⟨rfl, -⟩ := h.of_vacant (.inl rfl) hp
    rfl

end Aims

/-! ### Making directories that are there -/

theorem LeadsTo.isDirectory (h : d.LeadsTo r.bytes P) (hne : r.bytes ≠ [])
    (hr : Followable r.bytes) : d.isDirectory r := by
  rw [Disk.isDirectory, follow?, h.resolve_eq hne hr]

theorem exists_of_isDirectory (h : d.isDirectory r) : d.exists? r := by
  rw [isDirectory] at h
  rw [exists?]
  cases hf : d.follow? r with
  | none => simp [hf] at h
  | some e => rfl

theorem createChain_of_error (h : d.createDirectory r = .error g) (hg : g ≠ .notFound)
    (rest : List Route) : (createChain (r :: rest) d).2 = d ∧
      (d.isDirectory r → createChain (r :: rest) d = (.ok (), d)) := by
  rw [createChain, h]
  by_cases hempty : r.isEmpty
  · simp [hempty]
  · by_cases hdir : d.isDirectory r = true <;> cases g <;> simp_all

theorem createChain_cons_cases (hrest : (createChain rest d).2 = d) :
    (createChain (r :: rest) d).2 = d ∨
      d.createDirectory r = .ok (createChain (r :: rest) d).2 := by
  rcases h : createChain (r :: rest) d with ⟨x, d'⟩
  obtain ⟨d₁, hd₁, hcases⟩ := createChain_cases h
  obtain rfl : d₁ = d := hd₁.elim id (·.trans hrest)
  exact hcases.symm.imp And.left And.left

theorem createChain_of_present (h : d.resolve false r = .ok (.present p e)) :
    (createChain (r :: rest) d).2 = d :=
  (createChain_of_error (by rw [createDirectory, h]) (by simp) rest).1

section

variable (hP : d.LeadsTo (ofText a) P)
include hP

/-- No directory is made at a path that leads to one, and the fault is not that something is missing.
-/
theorem createDirectory_of_leadsTo (hparts : ¬ (a : Route).isEmpty) :
    ∃ f, d.createDirectory { start := a } = .error f ∧ f ≠ .notFound := by
  have hne : ofText a ≠ [] := by
    intro ha
    rw [Bytes.ofText_eq_nil_iff] at ha
    subst ha
    exact hparts (by decide)
  by_cases hr : Followable (ofText a)
  · obtain ⟨p, e, hres⟩ := exists_present_of_resolve (hP.resolve_eq (r := { start := a }) hne hr)
    exact ⟨.alreadyExists, by rw [createDirectory, hres], by simp⟩
  · obtain ⟨f, hres, hf⟩ := resolve_of_not_followable (d := d) (f := false)
      (r := { start := a }) hne hr
    exact ⟨f, by rw [createDirectory, hres], hf⟩

theorem createChain_of_leadsTo (rest : List Route) :
    (createChain ({ start := a } :: rest) d).2 = d ∧ (d.isDirectory a →
      createChain ({ start := a } :: rest) d = (.ok (), d)) := by
  by_cases hparts : (a : Route).isEmpty
  · simp [createChain, hparts]
  · obtain ⟨f, hf, hfault⟩ := createDirectory_of_leadsTo hP hparts
    exact createChain_of_error hf hfault rest

theorem createDirectories_of_isDirectory (hdir : d.isDirectory a) : d.createDirectories a = (.ok (), d) := by
  obtain ⟨rest, hrest⟩ := (a : Route).exists_ancestors_eq_cons
  rw [createDirectories, hrest]
  exact (createChain_of_leadsTo hP rest).2 hdir

theorem createChain_go_of_leadsTo (k : Nat) :
    (createChain ((Path.ancestors.go k a).map fun start => { start := start }) d).2 = d := by
  obtain ⟨rest, hrest⟩ := Path.exists_ancestors_go k a
  rw [hrest]
  exact (createChain_of_leadsTo hP _).1

end

theorem exists_ancestors (h : Path.parent? a = some a') : ∃ k,
    (a : Route).ancestors =
      { start := a } :: (Path.ancestors.go k a').map fun start => { start := start } := by
  obtain ⟨s, rest, hsegs⟩ := List.exists_cons_of_ne_nil (Text.split_ne_nil a)
  refine ⟨rest.length, ?_⟩
  have hgo : Path.ancestors a = a :: Path.ancestors.go rest.length a' := by
    rw [Path.ancestors, Path.segments, hsegs, List.length_cons, Path.ancestors.go, h]
  rw [Route.ancestors, hgo]
  rfl

theorem LeadsTo.exists_parent (hP : d.LeadsTo (ofText a) P) (hname : Path.IsName name) :
    ∃ a', Path.parent? (join a name) = some a' ∧ d.LeadsTo (ofText a') P := by
  obtain ⟨a', hparent, habs, k, hsteps⟩ := Path.exists_parent?_join (a := a) hname
  refine ⟨a', hparent, hP.of_here ?_ hsteps⟩
  rw [Path.isAbsolute_ofText, Path.isAbsolute_ofText, habs]

section

variable (hname : Path.IsName name)
include hname

theorem isEmpty_join : ¬ (join a name : Route).isEmpty := by
  intro h
  have hlast := Path.fileName?_join (a := a) hname
  rw [Route.isEmpty, Bool.and_eq_true] at h
  rw [Path.fileName?, List.isEmpty_iff.1 h.2] at hlast
  cases hlast

theorem createChain_go_join (hP : d.LeadsTo (ofText a) P) (k : Nat) {r} (hd' : createChain
      ((Path.ancestors.go k (join a name)).map fun start => { start := start }) d = (r, d')) :
    (d.createDirectory (join a name) = .ok d' ∧ r = .ok ()) ∨
      d' = d ∧ (r = .ok () → d.isDirectory (join a name)) := by
  obtain ⟨rest, hrest, hchain⟩ : ∃ rest,
      (Path.ancestors.go k (join a name)).map (fun start => ({ start := start } : Route)) =
        { start := join a name } :: rest ∧ (createChain rest d).2 = d := by
    cases k with
    | zero => exact ⟨[], rfl, rfl⟩
    | succ k =>
      obtain ⟨a', hparent, hP'⟩ := hP.exists_parent hname
      refine ⟨_, ?_, createChain_go_of_leadsTo hP' k⟩
      rw [Path.ancestors.go, hparent]
      rfl
  rw [hrest] at hd'
  obtain ⟨d₁, hd₁, hcases⟩ := createChain_cases hd'
  obtain rfl : d₁ = d := hd₁.elim id (·.trans hchain)
  rcases hcases with hmade | ⟨heq, hdir⟩
  · exact .inl hmade
  · exact .inr ⟨heq, fun hr => heq ▸ (hdir hr).resolve_left (isEmpty_join hname)⟩

theorem createDirectories_join (hP : d.LeadsTo (ofText a) P) :
    (∃ d', d.createDirectory (join a name) = .ok d' ∧
        d.createDirectories (join a name) = (.ok (), d')) ∨
      ((d.createDirectories (join a name)).2 = d ∧
        ((d.createDirectories (join a name)).1 = .ok () → d.isDirectory (join a name))) := by
  rcases hd' : d.createDirectories (join a name) with ⟨r, d'⟩
  rcases createChain_go_join hname hP _ hd' with ⟨hmake, rfl⟩ | h
  · exact .inl ⟨d', hmake, rfl⟩
  · exact .inr h

theorem LeadsTo.of_join (hproper : Name.Proper (ofText name)) (hP : d.LeadsTo (ofText a) P)
    (hlink : ∀ t, d.get? (P ++ [ofText name]) ≠ some (.symlink t))
    (hQ : d.LeadsTo (ofText (join a name)) Q) :
    Q = P ++ [ofText name] ∧ d.get? Q = some .directory ∧ P ∉ d.closed := by
  rw [Path.ofText_join hname.isAbsolute_eq] at hQ
  obtain ⟨mid, M, hM, hwalk⟩ := hQ.exists_before hproper.ne_nil hproper.no_slash
  obtain rfl : M = P := hM.unique hP
  rw [walkLinks_name hproper.isStep (.inr hlink)] at hwalk
  have hopen : M ∉ d.closed := fun hclosed => by simp [lookup, hclosed] at hwalk
  rcases lookup_eq_ok hwalk with ⟨e, he, heq⟩ | ⟨-, -, heq⟩
  · obtain ⟨rfl, rfl⟩ := Target.present.inj heq
    exact ⟨rfl, he, hopen⟩
  · cases heq

theorem changes_createDirectories_join_join {s}
    (hproper : Name.Proper (ofText name)) (hs : Path.IsName s)
    (hproper' : Name.Proper (ofText s)) (hP : d.LeadsTo (ofText a) P)
    (hlink : ∀ t, d.get? (P ++ [ofText name]) ≠ some (.symlink t)) :
    Changes (fun q => q = P ++ [ofText name] ∨ q = P ++ [ofText name] ++ [ofText s])
      d (d.createDirectories (join (join a name) s)).2 := by
  -- the directory itself is made below the one above it
  have hlast : ∀ {d d' : Disk}, d.LeadsTo (ofText a) P →
      (∀ t, d.get? (P ++ [ofText name]) ≠ some (.symlink t)) →
      d.createDirectory (join (join a name) s) = .ok d' →
      Changes (fun q => q = P ++ [ofText name] ∨ q = P ++ [ofText name] ++ [ofText s]) d d' := by
    intro d d' hP hlink hmake
    obtain ⟨p, slash, hres, -⟩ := Disk.createDirectory_eq_ok hmake
    have hbytes : (join (join a name) s : Route).bytes =
        Name.below (ofText (join a name)) (ofText s) :=
      Path.ofText_join hs.isAbsolute_eq
    obtain ⟨left, Q, hQ, -⟩ := exists_leadsTo hbytes hproper'.ne_nil hproper'.no_slash hres
    obtain ⟨rfl, -, -⟩ := hP.of_join hname hproper hlink hQ
    obtain ⟨-, rfl⟩ := (aims_join hproper' hQ).createDirectory_eq_ok hmake
    exact (changes_put (by simp)).mono fun q => .inr
  obtain ⟨k, hk⟩ := exists_ancestors (Path.parent?_join_join (a := a) hname hs)
  rcases h : d.createDirectories (join (join a name) s) with ⟨x, d'⟩
  rw [createDirectories, hk] at h
  obtain ⟨d₁, hd₁, hcases⟩ := createChain_cases h
  have habove : d₁.LeadsTo (ofText a) P ∧
      (∀ t, d₁.get? (P ++ [ofText name]) ≠ some (.symlink t)) ∧
      Changes (· = P ++ [ofText name]) d d₁ := by
    rcases hd₁ with rfl | rfl
    · exact ⟨hP, hlink, .refl _ _⟩
    rcases createChain_go_join hname hP k rfl with ⟨hmake, -⟩ | ⟨heq, -⟩
    · obtain ⟨hfree, heq⟩ := (aims_join hproper hP).createDirectory_eq_ok hmake
      have hne : P ++ [ofText name] ≠ [] := by simp
      rw [heq]
      exact ⟨hP.mono (keeps_put hne hfree) rfl, by simp [get?_put hne], changes_put hne⟩
    · rw [heq]
      exact ⟨hP, hlink, .refl _ _⟩
  obtain ⟨hP₁, hlink₁, hc⟩ := habove
  have hc := hc.mono fun q hq => (.inl hq : q = P ++ [ofText name] ∨
    q = P ++ [ofText name] ++ [ofText s])
  rcases hcases with ⟨hmake, -⟩ | ⟨rfl, -⟩
  · exact hc.trans (hlast hP₁ hlink₁ hmake)
  · exact hc

end

end AgentChain.Disk
