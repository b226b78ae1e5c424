import AgentChain.Proofs.Package.Steps

/-!
# The directory that packaging works in

Before anything is packaged the staging directory is made anew. What comes of that depends on
whether the directory of the artifacts is there already. If it is, nothing changes but the staging
directory. If it is not, directories are made, and nothing but directories.
-/

namespace AgentChain.Package

open AgentChain.Action Disk
open Bytes (ofText)
open AgentChain.Path (IsName join)

variable {dist : String} {P : Place} {d d' : Disk} {name : String} {r : Except Failure Unit}

/-- The path of the artifacts leads to one place if it leads anywhere, however files change and
directories come, and not through anything that packaging writes. The files that are written on the
way are plain. -/
structure Settled (d : Disk) (dist : String) (P : Place) : Prop where
  leads : ∀ d' Q, d.Grows d' → d'.LeadsTo (ofText dist) Q →
    Q = P ∧ (d'.apart (rewritten P)).LeadsTo (ofText dist) P
  plain : ∀ name ∈ passing, d.Plain (spot P name)

theorem Settled.grows (h : Settled d dist P) (hg : d.Grows d') : Settled d' dist P where
  leads d'' Q hg' hQ := h.leads d'' Q (hg.trans hg') hQ
  plain name hname := (h.plain name hname).grows hg

theorem Settled.ready (h : Settled d dist P) (hd : d.Sound)
    (hQ : d.LeadsTo (ofText dist) Q) : Ready dist P d :=
  ⟨hd, (h.leads d Q (.refl d) hQ).2, h.plain⟩

theorem settled_of_leadsTo (h : (d.apart (rewritten P)).LeadsTo (ofText dist) P)
    (hplain : ∀ name ∈ passing, d.Plain (spot P name)) : Settled d dist P where
  leads _ _ hg hQ :=
    have hP := hg.leadsTo h
    ⟨hQ.unique hP.of_apart, hP⟩
  plain := hplain

theorem not_rewritten_self : ¬ rewritten P P := by
  intro h
  obtain ⟨name, -, hprefix⟩ := List.any_eq_true.1 h
  have hlength := (List.isPrefixOf_iff_prefix.1 hprefix).length_le
  simp [spot] at hlength

/-- A name in a directory that is there already leads to one place, if it is not that of a link. -/
theorem settled_of_root (hname : IsName name)
    (hproper : Name.Proper (ofText name)) (hP : P = R ++ [ofText name])
    (hroot : (d.apart (rewritten P)).LeadsTo (ofText root) R)
    (hlink : ∀ t, d.get? P ≠ some (.symlink t))
    (hplain : ∀ name ∈ passing, d.Plain (spot P name)) : Settled d (join root name) P where
  leads d' Q hg hQ := by
    have hroot' := hg.leadsTo hroot
    have hlink' : ∀ t, d'.get? (R ++ [ofText name]) ≠ some (.symlink t) := fun t ht =>
      hlink t (hP ▸ (hg.link _ t).1 ht)
    obtain ⟨rfl, hdir, hopen⟩ := hroot'.of_apart.of_join hname hproper hlink' hQ
    subst hP
    refine ⟨rfl, ?_⟩
    rw [hname.ofText_join]
    refine hroot'.below hproper hopen ?_
    rw [get?_apart, if_neg fun h => not_rewritten_self h.1, hdir]
  plain := hplain

/-- The place of the staging directory. -/
abbrev stage (P : Place) : Place :=
  spot P stagingDir

theorem staging_mem_used : stagingDir ∈ used := by
  decide

/-- A disk that is ready, with a staging directory to work in. -/
structure Staged (dist : String) (P : Place) (d : Disk) : Prop where
  ready : Ready dist P d
  opened : P ∉ d.closed
  directory : d.get? (stage P) = some .directory
  plain : ∀ q, inside (stage P) q = true → d.Plain q

theorem not_below_stage_spot (h : name ≠ stagingDir) : ¬ stage P <+: spot P name := by
  intro hprefix
  have heq := hprefix.eq_of_length (by simp [spot])
  exact h (spot_inj.1 heq).symm

theorem Ready.of_changes_stage (h : Ready dist P d) (hd' : d'.Sound)
    (hc : Changes (stage P <+: ·) d d') : Ready dist P d' where
  sound := hd'
  leads := by
    refine hc.leadsTo (fun q hq => ?_) h.leads
    rw [rewritten, List.any_eq_true]
    exact ⟨stagingDir, staging_mem_used, List.isPrefixOf_iff_prefix.2 hq⟩
  plain name hname := by
    refine (h.plain name hname).changes hc (not_below_stage_spot ?_)
    rintro rfl
    exact absurd hname (by decide)

theorem removeTree_of_ready (h : Ready dist P d)
    (hd' : d.removeTree (join dist stagingDir) = .ok d') :
    Ready dist P d' ∧ Changes (stage P <+: ·) d d' ∧ d'.get? (stage P) = none := by
  have hc : Changes (stage P <+: ·) d d' ∧ d'.get? (stage P) = none := by
    rcases (h.aims staging_mem_used).removeTree_eq_ok hd' with ⟨-, rfl⟩ | ⟨t, -, rfl⟩
    · refine ⟨changes_eraseTree, ?_⟩
      exact get?_eraseTree.trans (if_pos ⟨List.prefix_refl _, spot_ne_nil⟩)
    · refine ⟨changes_erase.mono fun q hq => hq ▸ List.prefix_refl _, ?_⟩
      exact get?_erase.trans (if_pos ⟨rfl, spot_ne_nil⟩)
  exact ⟨h.of_changes_stage (h.sound.removeTree hd') hc.1, hc⟩

theorem staged_of_createDirectory (h : Ready dist P d)
    (hd' : d.createDirectory (join dist stagingDir) = .ok d') :
    Staged dist P d' ∧ d'.Bare (stage P) ∧ Changes (stage P <+: ·) d d' := by
  have haims := h.aims staging_mem_used
  have hsound := h.sound.createDirectory hd'
  obtain ⟨p, s, hres, -⟩ := Disk.createDirectory_eq_ok hd'
  obtain ⟨hnone, rfl⟩ := haims.createDirectory_eq_ok hd'
  have hc : Changes (stage P <+: ·) d (d.put (stage P) .directory) :=
    (changes_put spot_ne_nil).mono fun q hq => hq ▸ List.prefix_refl _
  have hbare : (d.put (stage P) .directory).Bare (stage P) := by
    intro q hq
    obtain ⟨names, hne, rfl⟩ := inside_iff.1 hq
    refine (get?_put (spot_ne_nil : spot P stagingDir ≠ [])).trans ?_
    rw [if_neg (by simpa using hne)]
    exact h.sound.get?_append_eq_none (by rw [stage, spot, hnone]; simp) hne
  refine ⟨⟨h.of_changes_stage hsound hc, haims.opened hres, ?_, fun q hq => ?_⟩, hbare, hc⟩
  · exact (get?_put spot_ne_nil).trans (if_pos rfl)
  · exact hsound.plain_of_free (hbare q hq)

theorem createDirectories_of_ready (h : Ready dist P d)
    (hfree : d.exists? (join dist stagingDir) = false) {r : Except Fault Unit}
    (hd' : d.createDirectories (join dist stagingDir) = (r, d')) :
    (r = .ok () → Staged dist P d' ∧ d'.Bare (stage P)) ∧ Ready dist P d' ∧
      Changes (stage P <+: ·) d d' := by
  have hname := isName_of_mem_used _ staging_mem_used
  rcases createDirectories_join hname h.leadsTo with ⟨d₁, hmake, heq⟩ | ⟨hsame, hdir⟩
  · rw [hd'] at heq
    cases heq
    obtain ⟨hstaged, hbare, hc⟩ := staged_of_createDirectory h hmake
    exact ⟨fun _ => ⟨hstaged, hbare⟩, hstaged.ready, hc⟩
  · rw [hd'] at hsame hdir
    obtain rfl : d' = d := hsame
    refine ⟨fun hok => ?_, h, .refl _ _⟩
    have hexists := exists_of_isDirectory (hdir hok)
    rw [hfree] at hexists
    cases hexists

theorem result_resetDirectory_of_not_exists {path : String} (h : ¬ d.exists? path) :
    (resetDirectory path).result d = (OnDisk.createDirectories path).result d := by
  rw [resetDirectory, result_bind, OnDisk.result_look]
  simp only [if_neg h]

theorem resetDirectory_of_ready (h : Ready dist P d)
    (hd' : (resetDirectory (join dist stagingDir)).result d = (r, d')) :
    (r = .ok () → Staged dist P d' ∧ d'.Bare (stage P)) ∧ Ready dist P d' ∧
      Changes (stage P <+: ·) d d' := by
  have hmake : ∀ {d₁}, Ready dist P d₁ → d₁.exists? (join dist stagingDir) = false →
      (OnDisk.createDirectories (join dist stagingDir)).result d₁ = (r, d') →
      (r = .ok () → Staged dist P d' ∧ d'.Bare (stage P)) ∧ Ready dist P d' ∧
        Changes (stage P <+: ·) d₁ d' := by
    intro d₁ h₁ hfree hres
    rw [OnDisk.result_createDirectories] at hres
    obtain ⟨hr, rfl⟩ := Prod.mk.inj hres
    obtain ⟨hstaged, hrest⟩ := createDirectories_of_ready h₁ hfree rfl
    exact ⟨fun hok => hstaged (mapError_eq_ok.1 (mapError_eq_ok.1 (hr.trans hok))), hrest⟩
  by_cases hexists : d.exists? (join dist stagingDir)
  · rw [resetDirectory, result_bind, OnDisk.result_look] at hd'
    simp only [if_pos hexists] at hd'
    cases hremove : d.removeTree (join dist stagingDir) with
    | error f =>
      rw [result_bind, result_within, OnDisk.result_change_of_error hremove] at hd'
      obtain ⟨rfl, rfl⟩ := Prod.mk.inj hd'
      exact ⟨by simp, h, .refl _ _⟩
    | ok d₁ =>
      rw [result_bind, result_within, OnDisk.result_change_of_ok hremove] at hd'
      obtain ⟨h₁, hc, hnone⟩ := removeTree_of_ready h hremove
      have hfree := (h₁.aims staging_mem_used).exists?_eq_false hnone
      obtain ⟨hstaged, h', hc'⟩ := hmake h₁ hfree hd'
      exact ⟨hstaged, h', hc.trans hc'⟩
  · rw [result_resetDirectory_of_not_exists hexists] at hd'
    exact hmake h (by simpa using hexists) hd'

/-- Whatever the path of the staging directory is resolved to, the path before it leads to its
place. -/
theorem Settled.leadsTo_of_resolve (h : Settled d dist P)
    (hg : d.Grows d₁) (ht : d₁.resolve f (join dist stagingDir) = .ok t) :
    d₁.LeadsTo (ofText dist) P := by
  have hname := isName_of_mem_used _ staging_mem_used
  have hproper := proper_of_mem_used _ staging_mem_used
  have hbytes : (join dist stagingDir : Route).bytes =
      Name.below (ofText dist) (ofText stagingDir) := hname.ofText_join
  obtain ⟨left, Q, hQ, -⟩ := exists_leadsTo hbytes hproper.ne_nil hproper.no_slash ht
  exact (h.leads d₁ Q hg hQ).1 ▸ hQ

theorem Settled.not_exists (h : Settled d dist P) (hnot : ¬ d.LeadsTo (ofText dist) P) :
    ¬ d.exists? (join dist stagingDir) := by
  intro hexists
  rw [exists?, follow?] at hexists
  cases hres : d.resolve true (join dist stagingDir) with
  | error f => simp [hres] at hexists
  | ok t => exact hnot (h.leadsTo_of_resolve (.refl d) hres)

theorem resetDirectory_of_free (hd : d.Sound) (h : Settled d dist P) (hP : d.get? P = none)
    (hnot : ¬ d.LeadsTo (ofText dist) P)
    (hd' : (resetDirectory (join dist stagingDir)).result d = (r, d')) :
    (r = .ok () → Staged dist P d') ∧ d'.Sound ∧ d.Furnished d' := by
  have hname := isName_of_mem_used _ staging_mem_used
  rw [result_resetDirectory_of_not_exists (h.not_exists hnot), OnDisk.result_createDirectories] at hd'
  obtain ⟨hr, hd'⟩ := Prod.mk.inj hd'
  have hfurnished := hd.furnished_createDirectories (join dist stagingDir)
  rw [hd'] at hfurnished
  obtain ⟨hsound, hfurn⟩ := hfurnished
  refine ⟨fun hok => ?_, hsound, hfurn⟩
  have hbare := hfurn.entry_append hd hP
  have hmade : d.createDirectories (join dist stagingDir) = (.ok (), d') :=
    Prod.ext (mapError_eq_ok.1 (mapError_eq_ok.1 (hr.trans hok))) hd'
  rcases createDirectories_eq_ok (isEmpty_join hname) hd hmade with hdir | ⟨d₀, hd₀, hfurn₀, hmake⟩
  · obtain ⟨p, hres⟩ := exists_resolve_of_isDirectory hdir
    have hready := (h.grows hfurn.grows).ready hsound (h.leadsTo_of_resolve hfurn.grows hres)
    have haims := hready.aims staging_mem_used
    refine ⟨hready, haims.opened hres, ?_, fun q hq => ?_⟩
    · exact haims.get?_of_isDirectory (hsound.plain_of_bare (hbare _)).link hdir
    · obtain ⟨names, -, rfl⟩ := inside_iff.1 hq
      rw [stage, spot, List.append_assoc]
      exact hsound.plain_of_bare (hbare _)
  · obtain ⟨p, s, hres, -⟩ := Disk.createDirectory_eq_ok hmake
    have hready := (h.grows hfurn₀.grows).ready hd₀ (h.leadsTo_of_resolve hfurn₀.grows hres)
    exact (staged_of_createDirectory hready hmake).1

theorem Settled.leadsTo_of_createDirectories (hd : d.Sound) (h : Settled d dist P)
    (hmade : d.createDirectories (join dist stagingDir) = (.ok (), d')) :
    d'.LeadsTo (ofText dist) P := by
  have hname := isName_of_mem_used _ staging_mem_used
  have hfurn := (hd.furnished_createDirectories (join dist stagingDir)).2
  rw [hmade] at hfurn
  rcases createDirectories_eq_ok (isEmpty_join hname) hd hmade with hdir | ⟨d₀, hd₀, hfurn₀, hmake⟩
  · obtain ⟨p, hres⟩ := exists_resolve_of_isDirectory hdir
    exact h.leadsTo_of_resolve hfurn.grows hres
  · obtain ⟨p, s, hres, -⟩ := Disk.createDirectory_eq_ok hmake
    have hgrows := (Furnishing.createDirectory d₀ _ d' hmake hd₀).2.grows
    exact (h.leadsTo_of_resolve hfurn₀.grows hres).mono hgrows.keeps hgrows.home

/-- Making the staging directory anew, where the directory of the artifacts is or may come right
below one that is there. -/
theorem resetDirectory_of_root (hd : d.Sound) (hname : IsName name)
    (hproper : Name.Proper (ofText name)) (hP : P = R ++ [ofText name])
    (hroot : d.LeadsTo (ofText root) R) (hlink : ∀ t, d.get? P ≠ some (.symlink t))
    (hsettled : Settled d (join root name) P)
    (hd' : (resetDirectory (join (join root name) stagingDir)).result d = (r, d')) :
    (r = .ok () → Staged (join root name) P d' ∧ d'.Bare (stage P)) ∧
      Changes (fun q => q = P ∨ stage P <+: q) d d' := by
  by_cases hleads : d.LeadsTo (ofText (join root name)) P
  · obtain ⟨hstaged, -, hc⟩ := resetDirectory_of_ready (hsettled.ready hd hleads) hd'
    exact ⟨hstaged, hc.mono fun q => .inr⟩
  have hmade := hd'
  rw [result_resetDirectory_of_not_exists (hsettled.not_exists hleads), OnDisk.result_createDirectories] at hmade
  obtain ⟨hr, hmade⟩ := Prod.mk.inj hmade
  have hc := changes_createDirectories_join_join hname hproper (isName_of_mem_used _ staging_mem_used)
    (proper_of_mem_used _ staging_mem_used) hroot (hP ▸ hlink)
  have hfurn := (hd.furnished_createDirectories (join (join root name) stagingDir)).2
  rw [hmade] at hc hfurn
  subst hP
  refine ⟨fun hok => ?_, hc.mono fun q hq => hq.imp_right fun hq => ?_⟩
  swap
  · exact hq.symm ▸ List.prefix_refl (stage _)
  -- a directory that was there already would have been found
  have hfree : d.get? (R ++ [ofText name]) = none := by
    have hleads' := hsettled.leadsTo_of_createDirectories hd
      (Prod.ext (mapError_eq_ok.1 (mapError_eq_ok.1 (hr.trans hok))) hmade)
    obtain ⟨-, hdir, hopen⟩ := (hroot.mono hfurn.grows.keeps hfurn.grows.home).of_join hname hproper
      (fun t ht => hlink t ((hfurn.grows.link _ t).1 ht)) hleads'
    rcases hfurn.entry (R ++ [ofText name]) with hsame | ⟨hnone, -⟩
    · refine absurd ?_ hleads
      rw [hname.ofText_join]
      refine hroot.below hproper (fun hclosed => hopen ?_) (hsame.symm.trans hdir)
      exact hc.still_closed R (by simp) hclosed
    · exact hnone
  obtain ⟨hstaged, -, -⟩ := resetDirectory_of_free hd hsettled hfree hleads hd'
  refine ⟨hstaged hok, fun q hq => ?_⟩
  obtain ⟨names, hne, rfl⟩ := inside_iff.1 hq
  rw [hc.entry _ (by simp [spot, hne]), stage, spot, List.append_assoc]
  exact hd.get?_append_eq_none (by simp [hfree]) (by simp)

end AgentChain.Package
