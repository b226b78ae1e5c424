import AgentChain.FileTree.Operations
import AgentChain.Proofs.FileTree.Leads

/-!
# What operations on disks do

Each operation resolves its routes and then makes one change, which is named here together with what
is known of the place where it is made. Operations keep a disk sound. Those that write files and
make directories leave all directories and links in place and make no new links. What is written can
be read.
-/

namespace AgentChain

/-! ### The directories above a route -/

theorem Path.exists_ancestors_go (k : Nat) (a : String) : ∃ rest, ancestors.go k a = a :: rest := by
  cases k with
  | zero => exact ⟨[], rfl⟩
  | succ k =>
    rw [ancestors.go]
    split
    · exact ⟨[], rfl⟩
    · exact ⟨_, rfl⟩

namespace Route

theorem ancestors_concat (dest : String) (k : List Name) (n : Name) :
    (⟨dest, k ++ [n]⟩ : Route).ancestors = ⟨dest, k ++ [n]⟩ :: (⟨dest, k⟩ : Route).ancestors := by
  rw [ancestors, ancestors, List.length_append, List.length_singleton, List.range_succ_eq_map,
    List.map_cons, List.map_map, List.cons_append, Nat.sub_zero, List.take_of_length_le (by simp)]
  congr 2
  refine List.map_congr_left fun i _ => ?_
  rw [Function.comp_apply, Nat.succ_eq_add_one, Nat.add_sub_add_right,
    List.take_append_of_le_length (Nat.sub_le _ _)]

theorem exists_ancestors_eq_cons (r : Route) : ∃ rest, r.ancestors = r :: rest := by
  obtain ⟨start, names⟩ := r
  rcases List.eq_nil_or_concat' names with rfl | ⟨names, n, rfl⟩
  · obtain ⟨rest, hrest⟩ := Path.exists_ancestors_go (Path.segments start).length start
    exact ⟨_, by rw [ancestors, Path.ancestors, hrest]; rfl⟩
  · exact ⟨_, ancestors_concat start names n⟩

end Route

namespace Disk

variable {d d' : Disk} {f : Bool} {r : Route} {p q : Place} {e : Entry} {c : Bytes} {source : Route}

/-! ### Where routes lead on sound disks -/

theorem Sound.holds_of_resolve (hd : d.Sound) (h : d.resolve f r = .ok t) : t.Holds d := by
  have hfollow := followable_of_resolve h
  by_cases hne : r.bytes = []
  · simp [resolve, hne] at h
  · rw [resolve_eq hne hfollow] at h
    exact hd.holds_of_walkLinks (written_split hfollow.no_zero) h

theorem Sound.vacant_of_resolve (hd : d.Sound) (h : d.resolve f r = .ok (.vacant p s)) :
    d.Vacant p :=
  hd.holds_of_resolve h

theorem Sound.get?_of_resolve (hd : d.Sound) (h : d.resolve f r = .ok (.present p e))
    (he : e ≠ .directory) : d.get? p = some e :=
  (hd.holds_of_resolve h).resolve_left he

theorem exists_resolve_of_writePlace (h : d.writePlace r = .ok p) :
    ∃ t, d.resolve true r = .ok t := by
  cases hres : d.resolve true r with
  | error f => simp [writePlace, hres] at h
  | ok t => exact ⟨t, rfl⟩

theorem writePlace_eq_ok (h : d.writePlace r = .ok p) :
    (∃ c, d.resolve true r = .ok (.present p (.file c))) ∨
      d.resolve true r = .ok (.vacant p false) := by
  rw [writePlace] at h
  split at h <;> cases h
  · next hres => exact .inl ⟨_, hres⟩
  · next hres => exact .inr hres

theorem newPlace_eq_ok (h : d.newPlace r = .ok p) : d.resolve false r = .ok (.vacant p false) := by
  rw [newPlace] at h
  split at h <;> cases h
  assumption

theorem canonical?_eq_ok (h : d.canonical? r = .ok p) :
    (∃ e, d.resolve true r = .ok (.present p e)) ∧ d.get? p ≠ none := by
  rw [canonical?] at h
  split at h
  · next hres =>
    split at h
    · next hsome =>
      cases h
      exact ⟨⟨_, hres⟩, by simpa [Option.isSome_iff_ne_none] using hsome⟩
    · cases h
  all_goals cases h

theorem Sound.of_writePlace (hd : d.Sound) (h : d.writePlace r = .ok p) :
    d.Vacant p ∨ ∃ c, d.get? p = some (.file c) := by
  rcases writePlace_eq_ok h with ⟨c, hres⟩ | hres
  · exact .inr ⟨c, hd.get?_of_resolve hres (by simp)⟩
  · exact .inl (hd.vacant_of_resolve hres)

theorem Sound.of_newPlace (hd : d.Sound) (h : d.newPlace r = .ok p) : d.Vacant p :=
  hd.vacant_of_resolve (newPlace_eq_ok h)

/-! ### Reading -/

theorem readBytes_eq_ok :
    d.readBytes r = .ok c ↔ ∃ p, d.resolve true r = .ok (.present p (.file c)) := by
  rw [readBytes, openFile]
  rcases d.resolve true r with fault | ⟨p, e⟩ | ⟨p, s⟩
  · simp
  · cases e <;> simp [Opened.read]
  · simp

theorem openFile_of_readBytes (h : d.readBytes r = .ok c) : d.openFile r = .ok (.file c) := by
  obtain ⟨p, hp⟩ := readBytes_eq_ok.1 h
  rw [openFile, hp]

theorem isFile_iff : d.isFile r ↔ ∃ c, d.readBytes r = .ok c := by
  simp only [readBytes_eq_ok, isFile, follow?]
  rcases d.resolve true r with fault | ⟨p, e⟩ | ⟨p, s⟩
  · simp
  · cases e <;> simp
  · simp

theorem readText_eq_ok : d.readText r = .ok t ↔ d.readBytes r = .ok (Bytes.ofText t) := by
  rw [readText]
  cases h : d.readBytes r with
  | error e => simp
  | ok c =>
    simp only [Except.ok.injEq]
    constructor
    · intro ht
      split at ht
      · next s hs =>
        cases ht
        exact (Bytes.ofText_of_text? hs).symm
      · cases ht
    · rintro rfl
      rw [Bytes.text?_ofText]

/-- What is read from a file; nothing if it cannot be read. -/
def contentsOf (d : Disk) (r : Route) : Bytes :=
  (d.readBytes r).toOption.getD []

theorem contentsOf_eq (h : d.readBytes r = .ok c) : d.contentsOf r = c := by
  rw [contentsOf, h]
  rfl

/-! ### The changes -/

theorem map_eq_ok {ε α β : Type} {x : Except ε α} {g : α → β} {b} :
    x.map g = .ok b ↔ ∃ a, x = .ok a ∧ g a = b := by
  cases x <;> simp [Except.map]

theorem mapError_eq_ok {ε ε' α : Type} {x : Except ε α} {g : ε → ε'} {a} :
    x.mapError g = .ok a ↔ x = .ok a := by
  cases x <;> simp [Except.mapError]

theorem writeFile_eq_ok :
    d.writeFile r c = .ok d' ↔ ∃ p, d.writePlace r = .ok p ∧ d.fill p c = d' :=
  map_eq_ok

theorem append_eq_ok (h : d.append r c = .ok d') :
    ∃ p c', d.writePlace r = .ok p ∧ d' = d.fill p c' := by
  obtain ⟨p, hp, rfl⟩ := map_eq_ok.1 h
  split
  · exact ⟨p, _, hp, rfl⟩
  · exact ⟨p, _, hp, rfl⟩

theorem createNew_eq_ok :
    d.createNew r c = .ok d' ↔ ∃ p, d.newPlace r = .ok p ∧ d.put p (.file c) = d' :=
  map_eq_ok

theorem copy_eq_ok (h : d.copy source r = .ok d') :
    ∃ origin c p, d.resolve true source = .ok (.present origin (.file c)) ∧
      d.writePlace r = .ok p ∧ d' = d.fill p (if d.areTwins p origin then [] else c) := by
  rw [copy] at h
  split at h
  · next origin c hsource =>
    obtain ⟨p, hp, rfl⟩ := map_eq_ok.1 h
    exact ⟨origin, c, p, hsource, hp, rfl⟩
  all_goals cases h

theorem createDirectory_eq_ok (h : d.createDirectory r = .ok d') :
    ∃ p s, d.resolve false r = .ok (.vacant p s) ∧ d' = d.put p .directory := by
  rw [createDirectory] at h
  split at h
  · next hres =>
    cases h
    exact ⟨_, _, hres, rfl⟩
  all_goals cases h

/-- A chain of directories is made down to the last one but one, or not at all. Then the last one is
made, or not, and it is there already if nothing fails. -/
theorem createChain_cases (h : createChain (r :: rest) d = (x, d')) :
    ∃ d₁, (d₁ = d ∨ d₁ = (createChain rest d).2) ∧
      (d₁.createDirectory r = .ok d' ∧ x = .ok () ∨
        d' = d₁ ∧ (x = .ok () → r.isEmpty ∨ d'.isDirectory r)) := by
  have hthere : ∀ {d₁ : Disk} {f : Fault},
      (if d₁.isDirectory r then (.ok (), d₁) else (.error f, d₁)) = (x, d') →
      d' = d₁ ∧ (x = .ok () → r.isEmpty ∨ d'.isDirectory r) := by
    intro d₁ f h
    split at h <;> cases h
    · next hdir => exact ⟨rfl, fun _ => .inr hdir⟩
    · exact ⟨rfl, by simp⟩
  rw [createChain] at h
  split at h
  · next hempty =>
    cases h
    exact ⟨d, .inl rfl, .inr ⟨rfl, fun _ => .inl hempty⟩⟩
  split at h
  · next hmake =>
    cases h
    exact ⟨d, .inl rfl, .inl ⟨hmake, rfl⟩⟩
  · refine ⟨_, .inr rfl, ?_⟩
    rcases hres : createChain rest d with ⟨f | u, d₁⟩ <;> simp only [hres] at h
    · cases h
      exact .inr ⟨rfl, by simp⟩
    · split at h
      · next hmake =>
        cases h
        exact .inl ⟨hmake, rfl⟩
      · exact .inr (hthere h)
  · exact ⟨d, .inl rfl, .inr (hthere h)⟩

theorem removeFile_eq_ok (h : d.removeFile r = .ok d') :
    ∃ p e, d.resolve false r = .ok (.present p e) ∧ e ≠ .directory ∧ d' = d.erase p := by
  rcases hres : d.resolve false r with fault | ⟨p, e⟩ | ⟨p, s⟩
  · simp [removeFile, hres] at h
  · refine ⟨p, e, rfl, ?_, ?_⟩
    · rintro rfl
      simp [removeFile, hres] at h
    · cases e <;> simp_all [removeFile]
  · simp [removeFile, hres] at h

theorem removeTree_eq_ok (h : d.removeTree r = .ok d') :
    (∃ p, d.resolve false r = .ok (.present p .directory) ∧ d' = d.eraseTree p) ∨
      ∃ p t, d.resolve false r = .ok (.present p (.symlink t)) ∧ d' = d.erase p := by
  rw [removeTree] at h
  split at h
  · next hres =>
    cases h
    exact .inl ⟨_, hres, rfl⟩
  · next hres =>
    cases h
    exact .inr ⟨_, _, hres, rfl⟩
  all_goals cases h

theorem rename_eq_ok (h : d.rename source r = .ok d') :
    ∃ q e, d.resolve false source = .ok (.present q e) ∧ e ≠ .directory ∧
      ((∃ p e', d.resolve false r = .ok (.present p e') ∧ e' ≠ .directory ∧
          d' = if d.areTwins q p then d else d.move q p e) ∨
        ∃ p, d.resolve false r = .ok (.vacant p false) ∧ d' = d.move q p e) := by
  rcases hq : d.resolve false source with fault | ⟨q, e⟩ | ⟨q, s⟩
  · simp [rename, hq] at h
  · have he : e ≠ .directory := by
      rintro rfl
      simp [rename, hq] at h
    refine ⟨q, e, rfl, he, ?_⟩
    rcases hp : d.resolve false r with fault | ⟨p, e'⟩ | ⟨p, s⟩
    · cases e <;> simp [rename, hq, hp] at h
    · refine .inl ⟨p, e', rfl, ?_, ?_⟩
      · rintro rfl
        cases e <;> simp [rename, hq, hp] at h
      · cases e <;> cases e' <;> simp_all [rename]
    · refine .inr ⟨p, ?_, ?_⟩
      · cases s
        · rfl
        · cases e <;> simp [rename, hq, hp] at h
      · cases s <;> cases e <;> simp_all [rename]
  · simp [rename, hq] at h

theorem symlink_eq_ok {t : Bytes} (h : d.symlink t r = .ok d') :
    0 ∉ t ∧ ∃ p, d.newPlace r = .ok p ∧ d' = d.put p (.symlink t) := by
  rw [symlink] at h
  split at h
  · cases h
  split at h
  · cases h
  · next hzero _ =>
    obtain ⟨p, hp, rfl⟩ := map_eq_ok.1 h
    exact ⟨by simpa using hzero, p, hp, rfl⟩

theorem hardLink_eq_ok (h : d.hardLink source r = .ok d') :
    ∃ q e p, d.resolve false source = .ok (.present q e) ∧ e ≠ .directory ∧
      d.newPlace r = .ok p ∧ d' = d.share q p e := by
  rcases hq : d.resolve false source with fault | ⟨q, e⟩ | ⟨q, s⟩
  · simp [hardLink, hq] at h
  · have he : e ≠ .directory := by
      rintro rfl
      simp [hardLink, hq] at h
    have hshare : (d.newPlace r).map (fun p => d.share q p e) = .ok d' := by
      cases e <;> simp_all [hardLink]
    obtain ⟨p, hp, rfl⟩ := map_eq_ok.1 hshare
    exact ⟨q, e, p, rfl, he, hp, rfl⟩
  · simp [hardLink, hq] at h

/-! ### Operations keep a disk sound -/

namespace Sound

section

variable (hd : d.Sound)
include hd

theorem writeFile (h : d.writeFile r c = .ok d') : d'.Sound := by
  obtain ⟨p, hp, rfl⟩ := writeFile_eq_ok.1 h
  exact hd.fill (hd.of_writePlace hp)

theorem append (h : d.append r c = .ok d') : d'.Sound := by
  obtain ⟨p, c', hp, rfl⟩ := append_eq_ok h
  exact hd.fill (hd.of_writePlace hp)

theorem copy (h : d.copy source r = .ok d') : d'.Sound := by
  obtain ⟨_, _, p, -, hp, rfl⟩ := copy_eq_ok h
  exact hd.fill (hd.of_writePlace hp)

theorem createNew (h : d.createNew r c = .ok d') : d'.Sound := by
  obtain ⟨p, hp, rfl⟩ := createNew_eq_ok.1 h
  exact hd.put (hd.of_newPlace hp) (by simp)

theorem symlink (h : d.symlink t r = .ok d') : d'.Sound := by
  obtain ⟨hzero, p, hp, rfl⟩ := symlink_eq_ok h
  refine hd.put (hd.of_newPlace hp) fun t' ht' => ?_
  cases ht'
  exact hzero

theorem hardLink (h : d.hardLink source r = .ok d') : d'.Sound := by
  obtain ⟨q, e, p, hq, he, hp, rfl⟩ := hardLink_eq_ok h
  exact hd.share (hd.get?_of_resolve hq he) he (hd.of_newPlace hp)

theorem rename (h : d.rename source r = .ok d') : d'.Sound := by
  obtain ⟨q, e, hq, he, ⟨p, e', hp, he', rfl⟩ | ⟨p, hp, rfl⟩⟩ := rename_eq_ok h
  · split
    · exact hd
    · exact hd.move (hd.get?_of_resolve hq he) he (.inr ⟨e', hd.get?_of_resolve hp he', he'⟩)
  · exact hd.move (hd.get?_of_resolve hq he) he (.inl (hd.vacant_of_resolve hp))

theorem createDirectory (h : d.createDirectory r = .ok d') : d'.Sound := by
  obtain ⟨p, s, hp, rfl⟩ := createDirectory_eq_ok h
  exact hd.put (hd.vacant_of_resolve hp) (by simp)

theorem removeFile (h : d.removeFile r = .ok d') : d'.Sound := by
  obtain ⟨p, e, hp, he, rfl⟩ := removeFile_eq_ok h
  refine hd.erase ?_
  rw [hd.get?_of_resolve hp he]
  simpa using he

theorem removeTree (h : d.removeTree r = .ok d') : d'.Sound := by
  obtain ⟨p, hp, rfl⟩ | ⟨p, t, hp, rfl⟩ := removeTree_eq_ok h
  · exact hd.eraseTree
  · refine hd.erase ?_
    rw [hd.get?_of_resolve hp (by simp)]
    simp

theorem setClosed {closed : Bool} (h : d.setClosed r closed = .ok d') : d'.Sound := by
  obtain ⟨p, hp, rfl⟩ := map_eq_ok.1 h
  have hsome := (canonical?_eq_ok hp).2
  refine ⟨hd.nodup, hd.parent, hd.proper, hd.target, hd.twins, fun q hq => ?_⟩
  have hothers : ∀ q ∈ d.closed.filter (· ≠ p), d.get? q ≠ none := fun q hq =>
    hd.closed q (List.mem_filter.1 hq).1
  split at hq
  · rcases List.mem_cons.1 hq with rfl | hq
    · exact hsome
    · exact hothers q hq
  · exact hothers q hq

end

end Sound

/-! ### Files come and go, directories come -/

/-- Files may have changed and directories may have come, and nothing else has. -/
structure Grows (d d' : Disk) : Prop where
  directory : ∀ p, d.get? p = some .directory → d'.get? p = some .directory
  link : ∀ p t, d'.get? p = some (.symlink t) ↔ d.get? p = some (.symlink t)
  alone : ∀ p, d.Alone p → d'.Alone p
  closed : ∀ p, p ∈ d'.closed → p ∈ d.closed
  home : d'.home = d.home

namespace Grows

theorem refl (d : Disk) : d.Grows d :=
  ⟨fun _ h => h, fun _ _ => .rfl, fun _ h => h, fun _ h => h, rfl⟩

theorem trans (h : d.Grows d') (h' : d'.Grows d'') : d.Grows d'' where
  directory p hp := h'.directory p (h.directory p hp)
  link p t := (h'.link p t).trans (h.link p t)
  alone p hp := h'.alone p (h.alone p hp)
  closed p hp := h.closed p (h'.closed p hp)
  home := h'.home.trans h.home

theorem keeps (h : d.Grows d') : d.Keeps d' :=
  ⟨h.directory, fun p t => (h.link p t).2, h.closed⟩

end Grows

theorem ne_nil_of_vacant_or_file (hp : d.Vacant p ∨ ∃ c', d.get? p = some (.file c')) : p ≠ [] := by
  rcases hp with hp | ⟨c', hp⟩
  · exact hp.ne_nil
  · rintro rfl
    simp at hp

theorem Sound.grows_fill (hd : d.Sound) (hp : d.Vacant p ∨ ∃ c', d.get? p = some (.file c')) :
    d.Grows (d.fill p c) := by
  have hne := ne_nil_of_vacant_or_file hp
  have hcases := hd.get?_fill_cases (c := c) hne (hp.imp Vacant.free id)
  have hfile : d.get? p = none ∨ ∃ c', d.get? p = some (.file c') := hp.imp Vacant.free id
  refine ⟨fun q hq => ?_, fun q t => ?_, fun q hq => ?_, fun q hq => ?_, home_fill⟩
  · rcases hcases q with heq | ⟨heq, rfl | ⟨c', hc'⟩⟩
    · rw [heq, hq]
    · rcases hfile with h | ⟨c', h⟩ <;> simp [h] at hq
    · simp [hc'] at hq
  · rcases hcases q with heq | ⟨heq, rfl | ⟨c', hc'⟩⟩
    · rw [heq]
    · rcases hfile with h | ⟨c', h⟩ <;> simp [h, heq]
    · simp [hc', heq]
  · rw [Alone, twins_fill]
    exact hq
  · rwa [closed_fill] at hq

theorem Sound.readBytes_writeFile (hd : d.Sound) (h : d.writeFile r c = .ok d') :
    d'.readBytes r = .ok c := by
  obtain ⟨p, hp, rfl⟩ := writeFile_eq_ok.1 h
  have hplace := hd.of_writePlace hp
  have hgrows := hd.grows_fill (c := c) hplace
  have hfile : (d.fill p c).get? p = some (.file c) := by
    simp [get?_fill (ne_nil_of_vacant_or_file hplace)]
  refine readBytes_eq_ok.2 ⟨p, ?_⟩
  rcases writePlace_eq_ok hp with ⟨c', hres⟩ | hres
  · exact hgrows.keeps.resolve_of_file home_fill hfile hres (.inr ⟨c', rfl⟩)
  · exact hgrows.keeps.resolve_of_file home_fill hfile hres (.inl rfl)

theorem keeps_put (hp : p ≠ []) (hfree : d.get? p = none) : d.Keeps (d.put p e) where
  directory q hq := by
    rw [get?_put hp, if_neg (by rintro rfl; simp [hfree] at hq), hq]
  link q t hq := by
    rw [get?_put hp, if_neg (by rintro rfl; simp [hfree] at hq), hq]
  closed _ hq := hq

theorem grows_put_directory (hp : d.Vacant p) : d.Grows (d.put p .directory) := by
  have hget : ∀ q, (d.put p .directory).get? q = if q = p then some .directory else d.get? q :=
    fun q => get?_put hp.ne_nil
  refine ⟨fun q hq => ?_, fun q t => ?_, fun _ hq => hq, fun _ hq => hq, rfl⟩
  · rw [hget]
    split
    · rfl
    · exact hq
  · rw [hget]
    split
    · next h => simp [h, hp.free]
    · rfl

end Disk

end AgentChain
