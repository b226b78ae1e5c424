import AgentChain.Proofs.FileTree.Workplace

/-!
# Directories that files do not leave

Into some directories links are put, so that paths below them may lead anywhere. What is done at
places below such a directory still changes nothing elsewhere, as long as no file below it stands
elsewhere too.
-/

namespace AgentChain.Disk

variable {d d' d'' : Disk} {T T' : Place → Prop} {dest : String} {D p q P : Place} {e : Entry}
  {b c t : Bytes}

/-! ### Everything elsewhere -/

/-- Everything but what stands at some places is as it was, and as open as it was. A file that stood
nowhere else still does. -/
structure Spares (T : Place → Prop) (d d' : Disk) : Prop where
  entry : ∀ q, ¬ T q → d'.get? q = d.get? q
  alone : ∀ q c, ¬ T q → d.get? q = some (.file c) → d.Alone q → d'.Alone q
  closed : ∀ q, ¬ T q → (q ∈ d'.closed ↔ q ∈ d.closed)
  home : d'.home = d.home

namespace Spares

theorem refl (T : Place → Prop) (d : Disk) : Spares T d d :=
  ⟨fun _ _ => rfl, fun _ _ _ _ h => h, fun _ _ => .rfl, rfl⟩

theorem trans (h : Spares T d d') (h' : Spares T d' d'') : Spares T d d'' where
  entry q hq := (h'.entry q hq).trans (h.entry q hq)
  alone q c hq hc ha := h'.alone q c hq ((h.entry q hq).trans hc) (h.alone q c hq hc ha)
  closed q hq := (h'.closed q hq).trans (h.closed q hq)
  home := h'.home.trans h.home

theorem mono (h : Spares T d d') (hT : ∀ q, T q → T' q) : Spares T' d d' where
  entry q hq := h.entry q fun hq' => hq (hT q hq')
  alone q c hq := h.alone q c fun hq' => hq (hT q hq')
  closed q hq := h.closed q fun hq' => hq (hT q hq')
  home := h.home

end Spares

theorem Changes.spares (h : Changes T d d') : Spares T d d' :=
  ⟨h.entry, fun q _ hq _ => h.alone q hq, fun q hq => ⟨h.closed q, h.still_closed q hq⟩, h.home⟩

/-! ### Paths that are not led through a directory -/

theorem inside_of_dropLast (h : inside D q.dropLast) : inside D q := by
  obtain ⟨names, hne, hq⟩ := inside_iff.1 h
  have hqne : q ≠ [] := by
    rintro rfl
    simp [hne] at hq
  rw [← List.dropLast_append_getLast hqne, hq, List.append_assoc]
  exact inside_append (by simp)

theorem inside_concat (h : D <+: P) : inside D (P ++ [n]) := by
  obtain ⟨names, rfl⟩ := h
  rw [List.append_assoc]
  exact inside_append (by simp)

theorem spares_without (h : ∀ q, gone q → inside D q) : Spares (inside D ·) d (d.without gone) :=
  (changes_without gone).spares.mono h

theorem inside_startIn (h : inside D P = false) : inside D (startIn P b) = false := by
  rw [startIn]
  split
  · simp [inside]
  · exact h

/-- A walk that does not lead through a directory ends where it ends whatever is done below it. -/
theorem Spares.walkLinks_eq (hs : Spares (inside D ·) d d')
    (h : (d.without (inside D)).walkLinks true l base segs = .ok (.present p e))
    (hbase : inside D base = false) : d'.walkLinks true l base segs = .ok (.present p e) := by
  -- the walk never enters the directory, so it does not matter which of those below it are closed
  have hopen : ∀ {q}, inside D q = false → q ∉ (d.without (inside D)).closed → q ∉ d'.closed :=
    fun hq hopen hclosed => hopen
      (List.mem_filter.2 ⟨(hs.closed _ (by simp [hq])).1 hclosed, by simp [hq]⟩)
  have hfound : ∀ {q : Place} {e}, q ≠ [] → (d.without (inside D)).get? q = some e →
      inside D q = false ∧ d'.get? q = some e := by
    intro q e hq he
    obtain ⟨hget, hoff⟩ := of_get?_without he
    exact ⟨hoff hq, by rwa [hs.entry q (by simp [hoff hq])]⟩
  rw [walkLinks_eq_ok_iff] at h ⊢
  generalize ht : Target.present p e = t at h ⊢
  induction h with
  | nil => exact .nil _ _
  | idle _ ih => exact .idle (ih hbase ht)
  | here entered _ ih => exact .here (hopen hbase entered) (ih hbase ht)
  | up entered _ ih =>
    refine .up (hopen hbase entered) (ih ?_ ht)
    rw [← Bool.not_eq_true] at hbase ⊢
    exact fun h => hbase (inside_of_dropLast h)
  | vacant => cases ht
  | down entered step found _ ih =>
    obtain ⟨hplace, hget⟩ := hfound (by simp) found
    exact .down (hopen hbase entered) step hget (ih hplace ht)
  | file entered step found => exact .file (hopen hbase entered) step (hfound (by simp) found).2
  | shown _ _ _ hf => cases hf
  | link entered step found followed _ ih =>
    exact .link (hopen hbase entered) step (hfound (by simp) found).2 followed
      (ih (inside_startIn hbase) ht)

theorem Spares.leadsTo (hs : Spares (inside D ·) d d')
    (h : (d.without (inside D)).LeadsTo b P) (hhome : inside D d.home = false) :
    d'.LeadsTo b P := by
  refine walkLinks_eq_present_directory_iff.1 ?_
  rw [hs.home]
  exact hs.walkLinks_eq h.walkLinks_eq (inside_startIn hhome)

theorem Spares.resolve_eq (hs : Spares (inside D ·) d d')
    (h : (d.without (inside D)).resolve true r = .ok (.present p e))
    (hhome : inside D d.home = false) : d'.resolve true r = .ok (.present p e) := by
  have hne := ne_nil_of_resolve h
  have hfollow := followable_of_resolve h
  rw [Disk.resolve_eq hne hfollow] at h ⊢
  rw [hs.home]
  exact hs.walkLinks_eq h (inside_startIn hhome)

/-! ### Enclosures -/

theorem Alone.share (h : d.Alone r) (hq : r ≠ q) (hp : r ≠ p) : (d.share q p e).Alone r := by
  intro group hgroup hr
  rw [Disk.share] at hgroup
  simp only at hgroup
  split at hgroup
  · obtain ⟨group', hgroup', rfl⟩ := List.mem_map.1 hgroup
    split at hr
    · exact h group' hgroup' ((List.mem_cons.1 hr).resolve_left hp)
    · exact h group' hgroup' hr
  · rcases List.mem_cons.1 hgroup with rfl | hgroup
    · simp [hq, hp] at hr
    · exact h group hgroup hr

/-- A path leads to a directory, and not through anything below it. Files below it stand nowhere
else, and only directories below it are closed. -/
structure Enclosure (dest : String) (D : Place) (d : Disk) : Prop where
  sound : d.Sound
  leads : (d.without (inside D)).LeadsTo (Bytes.ofText dest) D
  followable : Followable (Bytes.ofText dest)
  ne_nil : Bytes.ofText dest ≠ []
  directory : d.get? D = some .directory
  home : inside D d.home = false
  twins : ∀ p q c, inside D p = true → d.get? p = some (.file c) → d.areTwins p q = true →
    inside D q = true
  closed : ∀ q ∈ d.closed, inside D q = true → d.get? q = some .directory

namespace Enclosure

variable (h : Enclosure dest D d)
include h

theorem leadsTo : d.LeadsTo (Bytes.ofText dest) D :=
  (Spares.refl _ d).leadsTo h.leads h.home

theorem resolve_eq : d.resolve true dest = .ok (.present D .directory) :=
  LeadsTo.resolve_eq (r := { start := dest }) h.leadsTo h.ne_nil h.followable

theorem of_spares (hd' : d'.Sound) (hs : Spares (inside D ·) d d')
    (htwins : ∀ p q c, inside D p → d'.get? p = some (.file c) → d'.areTwins p q → inside D q)
    (hclosed : ∀ q ∈ d'.closed, inside D q → d'.get? q = some .directory) :
    Enclosure dest D d' where
  sound := hd'
  leads := (hs.trans (spares_without fun _ hq => hq)).leadsTo h.leads h.home
  followable := h.followable
  ne_nil := h.ne_nil
  directory := (hs.entry D inside_self).trans h.directory
  home := by rw [hs.home, h.home]
  twins := htwins
  closed := hclosed

theorem put (hp : inside D p) (hv : d.Vacant p) (he : ∀ t, e = .symlink t → 0 ∉ t) :
    Enclosure dest D (d.put p e) ∧ Spares (inside D ·) d (d.put p e) := by
  have hs : Spares (inside D ·) d (d.put p e) :=
    (changes_put hv.ne_nil).spares.mono fun q hq => hq ▸ hp
  refine ⟨h.of_spares (h.sound.put hv he) hs (fun q r c hq hget htwins => ?_)
    fun q hq hinside => ?_, hs⟩
  · by_cases hqp : q = p
    · subst hqp
      rw [← (h.sound.alone_of_free hv.free).areTwins_iff.1 htwins]
      exact hq
    · rw [get?_put hv.ne_nil, if_neg hqp] at hget
      exact h.twins q r c hq hget htwins
  · rw [get?_put hv.ne_nil, if_neg, h.closed q hq hinside]
    rintro rfl
    simpa [hv.free] using h.closed q hq hinside

theorem fill (hp : inside D p) (hw : d.Vacant p ∨ ∃ c', d.get? p = some (.file c')) :
    Enclosure dest D (d.fill p c) ∧ Spares (inside D ·) d (d.fill p c) := by
  have hne := ne_nil_of_inside hp
  have hcases := h.sound.get?_fill_cases (c := c) hne (hw.imp Vacant.free id)
  have htwins : ∀ q, d.areTwins p q → inside D q := by
    intro q hq
    rcases hw with hv | ⟨c', hc'⟩
    · rw [← (h.sound.alone_of_free hv.free).areTwins_iff.1 hq]
      exact hp
    · exact h.twins p q c' hp hc' hq
  have hs : Spares (inside D ·) d (d.fill p c) := by
    refine ⟨fun q hq => ?_, fun q c' _ _ ha => by rwa [Alone, twins_fill],
      fun q _ => by rw [closed_fill], home_fill⟩
    have hqp : q ≠ p := fun hqp => hq (hqp ▸ hp)
    rw [get?_fill hne, if_neg hqp, if_neg fun hqp => hq (htwins q hqp.2)]
  refine ⟨h.of_spares (h.sound.fill hw) hs (fun q r c' hq hget hqr => ?_)
    fun q hq hinside => ?_, hs⟩
  · rw [areTwins_fill] at hqr
    rcases hcases q with hsame | ⟨-, rfl | ⟨c', hfile⟩⟩
    · exact h.twins q r c' hq (hsame.symm.trans hget) hqr
    · exact htwins r hqr
    · exact h.twins q r c' hq hfile hqr
  · rw [closed_fill] at hq
    exact (h.sound.grows_fill hw).directory q (h.closed q hq hinside)

theorem erase (hp : inside D p) (he : d.get? p = some e) (hne : e ≠ .directory) :
    Enclosure dest D (d.erase p) ∧ Spares (inside D ·) d (d.erase p) := by
  have hs : Spares (inside D ·) d (d.erase p) := changes_erase.spares.mono fun q hq => hq ▸ hp
  have hdir : d.get? p ≠ some .directory := by
    rw [he]
    simpa using hne
  refine ⟨h.of_spares (h.sound.erase hdir) hs (fun q r c hq hget hqr => ?_)
    fun q hq hinside => ?_, hs⟩
  · refine h.twins q r c hq (of_get?_without hget).1 ?_
    rw [areTwins_iff] at hqr ⊢
    refine hqr.imp_right fun ⟨group, hg, hqg, hrg⟩ => ?_
    obtain ⟨group', hg', rfl⟩ := List.mem_map.1 hg
    exact ⟨group', hg', (List.mem_filter.1 hqg).1, (List.mem_filter.1 hrg).1⟩
  · have hclosed := h.closed q (List.mem_filter.1 hq).1 hinside
    rw [get?_erase, if_neg, hclosed]
    rintro ⟨rfl, -⟩
    exact hdir hclosed

theorem share (hp : inside D p) (hv : d.Vacant p) (hq : d.get? q = some e)
    (hne : e ≠ .directory) (hfile : ∀ c, e = .file c → inside D q) :
    Enclosure dest D (d.share q p e) ∧ Spares (inside D ·) d (d.share q p e) := by
  have hd' := h.sound.share hq hne hv
  have hget := get?_share (d := d) (q := q) (e := e) hv.ne_nil
  -- whoever gets a twin shares it with the origin
  have htwins : ∀ r s, (d.share q p e).areTwins r s →
      d.areTwins r s ∨ ((r = p ∨ d.areTwins q r) ∧ (s = p ∨ d.areTwins q s)) := by
    intro r s hrs
    rcases areTwins_iff.1 hrs with rfl | ⟨group, hg, hr, hs⟩
    · exact .inl (areTwins_iff.2 (.inl rfl))
    · rw [Disk.share] at hg
      simp only at hg
      split at hg
      · obtain ⟨group', hg', rfl⟩ := List.mem_map.1 hg
        split at hr
        · next hmem =>
          rw [if_pos hmem] at hs
          have hjoin : ∀ {x}, x ∈ p :: group' → x = p ∨ d.areTwins q x := fun hx =>
            (List.mem_cons.1 hx).imp_right fun hx =>
              areTwins_iff.2 (.inr ⟨group', hg', by simpa using hmem, hx⟩)
          exact .inr ⟨hjoin hr, hjoin hs⟩
        · next hmem =>
          rw [if_neg hmem] at hs
          exact .inl (areTwins_iff.2 (.inr ⟨group', hg', hr, hs⟩))
      · rcases List.mem_cons.1 hg with rfl | hg
        · have hjoin : ∀ {x}, x ∈ [q, p] → x = p ∨ d.areTwins q x := fun hx => by
            rcases List.mem_cons.1 hx with rfl | hx
            · exact .inr (areTwins_iff.2 (.inl rfl))
            · exact .inl (List.mem_singleton.1 hx)
          exact .inr ⟨hjoin hr, hjoin hs⟩
        · exact .inl (areTwins_iff.2 (.inr ⟨group, hg, hr, hs⟩))
  have hs : Spares (inside D ·) d (d.share q p e) := by
    refine ⟨fun r hr => ?_, fun r c hr hrfile ha => ?_, fun _ _ => .rfl, rfl⟩
    · have hrp : r ≠ p := fun hrp => hr (hrp ▸ hp)
      rw [hget, if_neg hrp]
    · have hrp : r ≠ p := fun hrp => hr (hrp ▸ hp)
      have hrq : r ≠ q := by
        rintro rfl
        exact hr (hfile c (Option.some.inj (hq.symm.trans hrfile)))
      exact ha.share hrq hrp
  refine ⟨h.of_spares hd' hs (fun r s c hr hrfile hrs => ?_) fun r hr hinside => ?_, hs⟩
  · have hold : r ≠ p → d.get? r = some (.file c) := fun hrp => by
      rwa [hget, if_neg hrp] at hrfile
    rcases htwins r s hrs with hold' | ⟨hr', rfl | hs'⟩
    · by_cases hrp : r = p
      · subst hrp
        rw [← (h.sound.alone_of_free hv.free).areTwins_iff.1 hold']
        exact hp
      · exact h.twins r s c hr (hold hrp) hold'
    · exact hp
    · -- the origin is a file, since the place that shares it holds one
      obtain ⟨c', rfl⟩ : ∃ c', e = .file c' := by
        by_cases hrp : r = p
        · rw [hrp, hget, if_pos rfl] at hrfile
          exact ⟨c, Option.some.inj hrfile⟩
        · have hrq : d.areTwins r q := by
            rw [areTwins_iff] at hr' ⊢
            rcases hr' with hr' | hr' | ⟨group, hg, hqg, hrg⟩
            · exact absurd hr' hrp
            · exact .inl hr'.symm
            · exact .inr ⟨group, hg, hrg, hqg⟩
          obtain ⟨c', hc'⟩ := h.sound.file_of_areTwins (hold hrp) hrq
          exact ⟨c', Option.some.inj (hq.symm.trans hc')⟩
      exact h.twins q s c' (hfile c' rfl) hq hs'
  · have hclosed := h.closed r hr hinside
    rw [hget, if_neg, hclosed]
    rintro rfl
    simp [hv.free] at hclosed

theorem setClosed {r closed} (hp : inside D p)
    (hdir : d.get? p = some .directory) (hres : d.resolve true r = .ok (.present p .directory))
    (hd' : d.setClosed r closed = .ok d') :
    Enclosure dest D d' ∧ Spares (inside D ·) d d' := by
  have hd'sound := h.sound.setClosed hd'
  rw [Disk.setClosed, canonical?, hres] at hd'
  simp only [hdir, Option.isSome_some, if_true] at hd'
  cases hd'
  have hmem : ∀ q, (q ∈ if closed then p :: d.closed.filter (· ≠ p) else d.closed.filter (· ≠ p)) →
      q = p ∨ q ∈ d.closed := by
    intro q hq
    split at hq
    · exact (List.mem_cons.1 hq).imp_right fun hq => (List.mem_filter.1 hq).1
    · exact .inr (List.mem_filter.1 hq).1
  have hs : Spares (inside D ·) d
      { d with closed := if closed then p :: d.closed.filter (· ≠ p) else d.closed.filter (· ≠ p) } := by
    refine ⟨fun _ _ => rfl, fun _ _ _ _ ha => ha, fun q hq => ?_, rfl⟩
    have hqp : q ≠ p := fun hqp => hq (hqp ▸ hp)
    simp only
    split <;> simp [hqp]
  refine ⟨h.of_spares hd'sound hs (fun q r c hq hget => h.twins q r c hq hget)
    fun q hq hinside => ?_, hs⟩
  rcases hmem q hq with rfl | hq
  · exact hdir
  · exact h.closed q hq hinside

end Enclosure

/-! ### Links -/

theorem Linkless.grows (h : Linkless D d) (hg : d.Grows d') : Linkless D d' :=
  fun q t hq ht => h q t hq ((hg.link q t).1 ht)

end AgentChain.Disk
