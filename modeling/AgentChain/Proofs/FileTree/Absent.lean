import AgentChain.Proofs.FileTree.Twins

/-!
# Files that are gone

Where a file or a link was removed, its path leads to nothing. It may have led to the file through a
link at its end, or even through the link that was removed. Texts that are added to other files do not
bring it back: if a path that led to nothing leads to something afterwards, then it leads to the file
that a text was added to.
-/

namespace AgentChain.Disk

variable {d d' : Disk} {f : Bool} {l : Nat} {base p : Place} {segs : List Name} {r source : Route}
  {x : Bytes} {e : Entry}

/-! ### Paths of files that were removed -/

/-- A walk that ended at what is erased finds nothing, whether it came there before its end or not. -/
theorem walkLinks_erase_ne_present (he : d.get? p = some e) (hne : e ≠ .directory)
    (h : d.walkLinks false l base segs = .ok (.present p e)) (q : Place) (e' : Entry) :
    (d.erase p).walkLinks f l base segs ≠ .ok (.present q e') := by
  have hp : p ≠ [] := by
    rintro rfl
    exact hne (Option.some.inj (he.symm.trans (get?_nil d)))
  have hgone : (d.erase p).get? p = none := by
    rw [get?_erase, if_pos ⟨rfl, hp⟩]
  have hkept : ∀ {q}, q ≠ p → (d.erase p).get? q = d.get? q := fun hq => by
    rw [get?_erase, if_neg fun h => hq h.1]
  have hentered : ∀ {q}, q ∉ d.closed → q ∉ (d.erase p).closed := fun hq hc =>
    hq (List.mem_filter.1 hc).1
  -- a walk that meets the place of what was erased ends there
  have hstops : ∀ {base : Place} {s : Name} {rest : List Name} {l : Nat}, base ∉ d.closed →
      s.IsStep → base ++ [s] = p → (d.erase p).walkLinks f l base (s :: rest) ≠ .ok (.present q e') := by
    rintro base s rest l entered step rfl
    rw [walkLinks_step (hentered entered) step, hgone]
    simp only
    split <;> simp
  rw [walkLinks_eq_ok_iff] at h
  generalize ht : Target.present p e = t at h
  induction h with
  | nil =>
    cases ht
    exact absurd rfl hne
  | idle _ ih =>
    rw [walkLinks_idle]
    exact ih ht
  | here entered _ ih =>
    rw [walkLinks_here (hentered entered)]
    exact ih ht
  | up entered _ ih =>
    rw [walkLinks_up (hentered entered)]
    exact ih ht
  | vacant => cases ht
  | @down _ base n _ _ entered step found _ ih =>
    have hdown : base ++ [n] ≠ p := by
      rintro rfl
      exact hne (Option.some.inj (he.symm.trans found))
    rw [walkLinks_step (hentered entered) step, hkept hdown, found]
    exact ih ht
  | file entered step | shown entered step =>
    cases ht
    exact hstops entered step rfl
  | @link _ base n _ _ _ entered step found followed _ ih =>
    by_cases hat : base ++ [n] = p
    · exact hstops entered step hat
    · rw [walkLinks_step (hentered entered) step, hkept hat, found]
      simp only [if_neg fun hlast : _ ∧ f = false => followed ⟨hlast.1, rfl⟩]
      exact ih ht

theorem Sound.exists?_removeFile (hd : d.Sound) (h : d.removeFile r = .ok d') :
    d'.exists? r = false := by
  obtain ⟨p, e, hres, hne, rfl⟩ := removeFile_eq_ok h
  have he := hd.get?_of_resolve hres hne
  have hempty := ne_nil_of_resolve hres
  have hfollowable := followable_of_resolve hres
  rw [resolve_eq hempty hfollowable] at hres
  rw [exists?, follow?, resolve_eq hempty hfollowable]
  have hhome : (d.erase p).home = d.home := rfl
  rw [hhome]
  split
  · next q e' hfound => exact absurd hfound (walkLinks_erase_ne_present he hne hres q e')
  · rfl

theorem exists?_of_removeFile_notFound (h : d.removeFile r = .error .notFound) :
    d.exists? r = false := by
  rw [exists?, follow?]
  split
  · next p e hres =>
    obtain ⟨q, e', hpresent⟩ := exists_present_of_resolve hres
    rw [removeFile, hpresent] at h
    cases e' <;> cases h
  · rfl

/-! ### Texts that are added -/

def Meets (d : Disk) (r r' : Route) : Prop :=
  ∃ p c c', d.resolve true r = .ok (.present p (.file c)) ∧
    d.resolve true r' = .ok (.present p (.file c'))

/-- What stands at a place after a text was added: a file that was added to, or what was there. -/
theorem Whole.get?_of_append (h : d.Whole) (hd' : d.append source x = .ok d') :
    ∃ p c, d.writePlace source = .ok p ∧ d' = d.fill p c ∧
      ∀ q, d'.get? q = d.get? q ∨ (d'.get? q = some (.file c) ∧
        (q = p ∨ ∃ c', d.get? q = some (.file c'))) := by
  obtain ⟨p, c, hp, rfl⟩ := append_eq_ok hd'
  have hplace := h.sound.of_writePlace hp
  exact ⟨p, c, hp, rfl, fun q =>
    h.sound.get?_fill_cases (ne_nil_of_vacant_or_file hplace) (hplace.imp_left Vacant.free) q⟩

/-- A path that led to nothing leads to something once a text was added: to the file with the text. -/
theorem Whole.meets_of_append (h : d.Whole) (hr : d.exists? r = false)
    (hd' : d.append source x = .ok d') (hr' : d'.exists? r) : d'.Meets source r := by
  have hsound := h.sound.append hd'
  obtain ⟨p, c, hp, rfl, hcases⟩ := h.get?_of_append hd'
  have hplace := h.sound.of_writePlace hp
  have hback : (d.fill p c).Keeps d := h.sound.keeps_of_fill hplace
  have hnone : ∀ {q e}, d.resolve true r ≠ .ok (.present q e) := by
    intro q e hres
    simp [exists?, follow?, hres] at hr
  obtain ⟨q, e, hres⟩ : ∃ q e, (d.fill p c).resolve true r = .ok (.present q e) := by
    rw [exists?, follow?] at hr'
    split at hr'
    · next q e hres => exact ⟨q, e, hres⟩
    · cases hr'
  cases e with
  | directory =>
    have hleads := (leadsTo_of_resolve hres).mono hback home_fill.symm
    exact absurd (hleads.resolve_eq (ne_nil_of_resolve hres) (followable_of_resolve hres)) hnone
  | symlink t =>
    rw [resolve_eq (ne_nil_of_resolve hres) (followable_of_resolve hres)] at hres
    exact absurd rfl (ne_symlink_of_walkLinks hres)
  | file c' =>
    have hold : ∀ {b}, d.get? q = some (.file b) → False := fun hb =>
      hnone (hback.resolve_of_file home_fill.symm hb hres (.inr ⟨c', rfl⟩))
    have hget := hsound.get?_of_resolve hres (by simp)
    rcases hcases q with heq | ⟨heq, rfl | ⟨b, hb⟩⟩
    · exact absurd (heq.symm.trans hget) hold
    · -- the text was added where the path leads now, and nothing stood there
      rcases writePlace_eq_ok hp with ⟨b, hsource⟩ | hsource
      · exact absurd (h.sound.get?_of_resolve hsource (by simp)) hold
      · exact ⟨q, c, c', (h.sound.grows_fill hplace).keeps.resolve_of_file home_fill heq hsource
          (.inl rfl), hres⟩
    · exact absurd hb hold

theorem Meets.append (h : d.Whole) (hmeets : d.Meets r r')
    (hd' : d.append source x = .ok d') : d'.Meets r r' := by
  obtain ⟨p, c, hp, rfl, hcases⟩ := h.get?_of_append hd'
  obtain ⟨q, b, b', hres, hres'⟩ := hmeets
  have hkeeps := (h.sound.grows_fill (c := c) (h.sound.of_writePlace hp)).keeps
  obtain ⟨b'', hfile⟩ : ∃ b'', (d.fill p c).get? q = some (.file b'') := by
    rcases hcases q with heq | ⟨heq, -⟩
    · exact ⟨b, heq.trans (h.sound.get?_of_resolve hres (by simp))⟩
    · exact ⟨c, heq⟩
  exact ⟨q, b'', b'', hkeeps.resolve_of_file home_fill hfile hres (.inr ⟨b, rfl⟩),
    hkeeps.resolve_of_file home_fill hfile hres' (.inr ⟨b', rfl⟩)⟩

end AgentChain.Disk
