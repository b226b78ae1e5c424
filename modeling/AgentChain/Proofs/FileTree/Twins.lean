import AgentChain.Proofs.Storage

/-!
# Files with several names

The names of a file are those of one file: what is written under one of them is found under all. A
disk on which this holds stays so while files are written and removed and directories are made. On
such a disk there are few ways in which the contents of a file under a path can come about by an
operation on another path: removing a file brings no contents, and a text that is added somewhere is
added to what was found under the path, or stands there alone.
-/

namespace AgentChain.Disk

open AgentChain.Action

variable {d d' : Disk} {p q : Place} {r source : Route} {b c x : Bytes} {e : Entry}

/-- The names of a file are those of one file, and the same stands under all of them. -/
structure TwinsAgree (d : Disk) : Prop where
  trans : ∀ p q r, d.areTwins p q = true → d.areTwins q r = true → d.areTwins p r = true
  same : ∀ p q, d.areTwins p q = true → d.get? q = d.get? p

theorem areTwins_refl (d : Disk) (p : Place) : d.areTwins p p :=
  areTwins_iff.2 (.inl rfl)

theorem areTwins_symm (h : d.areTwins p q) : d.areTwins q p := by
  rw [areTwins_iff] at h ⊢
  exact h.imp Eq.symm fun ⟨group, hg, hp, hq⟩ => ⟨group, hg, hq, hp⟩

theorem twinsAgree_of_nil (h : d.twins = []) : d.TwinsAgree := by
  have heq : ∀ p q, d.areTwins p q → p = q := fun p q hpq => by
    simpa [areTwins_iff, h] using hpq
  refine ⟨fun p q r hpq hqr => ?_, fun p q hpq => by rw [heq p q hpq]⟩
  rw [heq p q hpq, heq q r hqr]
  exact areTwins_refl d r

namespace TwinsAgree

theorem put (h : d.TwinsAgree) (hd : d.Sound) (hp : d.Vacant p) : (d.put p e).TwinsAgree := by
  refine ⟨h.trans, fun a b hab => ?_⟩
  have halone : d.Alone p := hd.alone_of_free hp.free
  have hab : d.areTwins a b := hab
  by_cases ha : a = p
  · subst ha
    rw [halone.areTwins_iff.1 hab]
  · have hb : b ≠ p := by
      rintro rfl
      exact ha (halone.areTwins_iff.1 (areTwins_symm hab)).symm
    rw [get?_put hp.ne_nil, get?_put hp.ne_nil, if_neg ha, if_neg hb, h.same a b hab]

theorem get?_fill_of_not_areTwins (hp : p ≠ []) (hq : ¬ d.areTwins p q) :
    (d.fill p c).get? q = d.get? q := by
  have hne : q ≠ p := by
    rintro rfl
    exact hq (areTwins_refl d q)
  rw [get?_fill hp, if_neg hne, if_neg fun h => hq h.2]

theorem fill (h : d.TwinsAgree) (hd : d.Sound)
    (hp : d.Vacant p ∨ ∃ c', d.get? p = some (.file c')) : (d.fill p c).TwinsAgree := by
  refine ⟨fun a b r => by simpa only [areTwins_fill] using h.trans a b r, fun a b hab => ?_⟩
  rw [areTwins_fill] at hab
  by_cases ha : d.areTwins p a
  · rw [hd.get?_fill_of_areTwins hp ha, hd.get?_fill_of_areTwins hp (h.trans p a b ha hab)]
  · have hb : ¬ d.areTwins p b := fun hb => ha (h.trans p b a hb (areTwins_symm hab))
    have hne := ne_nil_of_vacant_or_file hp
    rw [get?_fill_of_not_areTwins hne ha, get?_fill_of_not_areTwins hne hb, h.same a b hab]

theorem areTwins_erase_iff {a b} :
    (d.erase p).areTwins a b ↔ a = b ∨ (a ≠ p ∧ b ≠ p ∧ d.areTwins a b) := by
  rw [areTwins_iff, areTwins_iff]
  constructor
  · rintro (heq | ⟨group, hg, ha, hb⟩)
    · exact .inl heq
    · obtain ⟨group', hg', rfl⟩ := List.mem_map.1 hg
      obtain ⟨ha', hap⟩ := List.mem_filter.1 ha
      obtain ⟨hb', hbp⟩ := List.mem_filter.1 hb
      exact .inr ⟨by simpa using hap, by simpa using hbp, .inr ⟨group', hg', ha', hb'⟩⟩
  · rintro (heq | ⟨hap, hbp, heq | ⟨group, hg, ha, hb⟩⟩)
    · exact .inl heq
    · exact .inl heq
    · refine .inr ⟨_, List.mem_map_of_mem hg, List.mem_filter.2 ⟨ha, by simpa using hap⟩,
        List.mem_filter.2 ⟨hb, by simpa using hbp⟩⟩

theorem erase (h : d.TwinsAgree) : (d.erase p).TwinsAgree := by
  refine ⟨fun a b r hab hbr => ?_, fun a b hab => ?_⟩
  · rw [areTwins_erase_iff] at hab hbr ⊢
    obtain rfl | ⟨ha, hb, hab⟩ := hab
    · exact hbr
    · obtain rfl | ⟨-, hr, hbr⟩ := hbr
      · exact .inr ⟨ha, hb, hab⟩
      · exact .inr ⟨ha, hr, h.trans a b r hab hbr⟩
  · obtain rfl | ⟨ha, hb, hab⟩ := areTwins_erase_iff.1 hab
    · rfl
    · rw [get?_erase, get?_erase, if_neg fun hgone => hb hgone.1, if_neg fun hgone => ha hgone.1,
        h.same a b hab]

end TwinsAgree

/-! ### Whole disks -/

/-- A sound disk on which the names of files agree and only directories are closed. -/
structure Whole (d : Disk) : Prop where
  sound : d.Sound
  twins : d.TwinsAgree
  closed : ∀ p ∈ d.closed, d.get? p = some .directory

namespace Whole

theorem createDirectory (h : d.Whole) (hd' : d.createDirectory r = .ok d') : d'.Whole := by
  have hsound := h.sound.createDirectory hd'
  obtain ⟨p, s, hres, rfl⟩ := createDirectory_eq_ok hd'
  have hvacant := h.sound.vacant_of_resolve hres
  exact ⟨hsound, h.twins.put h.sound hvacant, fun q hq =>
    (grows_put_directory hvacant).directory q (h.closed q hq)⟩

theorem fill (h : d.Whole) (hp : d.Vacant p ∨ ∃ c', d.get? p = some (.file c')) :
    (d.fill p c).Whole := by
  refine ⟨h.sound.fill hp, h.twins.fill h.sound hp, fun q hq => ?_⟩
  rw [closed_fill] at hq
  exact (h.sound.grows_fill hp).directory q (h.closed q hq)

theorem writeFile (h : d.Whole) (hd' : d.writeFile r c = .ok d') : d'.Whole := by
  obtain ⟨p, hp, rfl⟩ := writeFile_eq_ok.1 hd'
  exact h.fill (h.sound.of_writePlace hp)

theorem append (h : d.Whole) (hd' : d.append r c = .ok d') : d'.Whole := by
  obtain ⟨p, c', hp, rfl⟩ := append_eq_ok hd'
  exact h.fill (h.sound.of_writePlace hp)

theorem not_mem_closed (h : d.Whole) (he : d.resolve false r = .ok (.present p e))
    (hne : e ≠ .directory) : p ∉ d.closed := by
  intro hclosed
  have hget := h.sound.get?_of_resolve he hne
  exact hne (Option.some.inj (hget.symm.trans (h.closed p hclosed)))

theorem removeFile (h : d.Whole) (hd' : d.removeFile r = .ok d') : d'.Whole := by
  have hsound := h.sound.removeFile hd'
  obtain ⟨p, e, hres, hne, rfl⟩ := removeFile_eq_ok hd'
  have hopen := h.not_mem_closed hres hne
  refine ⟨hsound, h.twins.erase, fun q hq => ?_⟩
  have hq : q ∈ d.closed := (List.mem_filter.1 hq).1
  have hqp : q ≠ p := fun heq => hopen (heq ▸ hq)
  rw [get?_erase, if_neg fun hgone => hqp hgone.1, h.closed q hq]

end Whole

def StaysWhole (d d' : Disk) : Prop :=
  d.Whole → d'.Whole

theorem StaysWhole.frame : Frame StaysWhole :=
  Action.frame_keeps _

/-! ### What is read after a change -/

theorem keeps_of_erase (hp : p ∉ d.closed) : (d.erase p).Keeps d where
  directory _ hq := (of_get?_without hq).1
  link _ _ hq := (of_get?_without hq).1
  closed q hq := by
    have hqp : q ≠ p := fun heq => hp (heq ▸ hq)
    exact List.mem_filter.2 ⟨hq, by simpa using hqp⟩

theorem Whole.readBytes_of_removeFile (h : d.Whole) (hd' : d.removeFile source = .ok d')
    (hread : d'.readBytes r = .ok c) : d.readBytes r = .ok c := by
  have hsound := h.sound.removeFile hd'
  obtain ⟨p, e, hres, hne, rfl⟩ := removeFile_eq_ok hd'
  obtain ⟨q, hq⟩ := readBytes_eq_ok.1 hread
  have hget : (d.erase p).get? q = some (.file c) := hsound.get?_of_resolve hq (by simp)
  have hkeeps := keeps_of_erase (h.not_mem_closed hres hne)
  exact readBytes_eq_ok.2
    ⟨q, hkeeps.resolve_of_file rfl (of_get?_without hget).1 hq (.inr ⟨c, rfl⟩)⟩

/-- What is read after a text was added to some file: what was read before, with or without the text
after it, or the text alone. -/
theorem Whole.readBytes_of_append (h : d.Whole) (hd' : d.append source x = .ok d')
    (hread : d'.readBytes r = .ok c) :
    d.readBytes r = .ok c ∨ (∃ b, d.readBytes r = .ok b ∧ c = b ++ x) ∨ c = x := by
  obtain ⟨p, hp, hfill⟩ := map_eq_ok.1 hd'
  have hplace := h.sound.of_writePlace hp
  have hne := ne_nil_of_vacant_or_file hplace
  obtain ⟨q, hq⟩ := readBytes_eq_ok.1 hread
  have hsound := h.sound.append hd'
  have hget : d'.get? q = some (.file c) := hsound.get?_of_resolve hq (by simp)
  -- the walk finds on the old disk what stands at its end there
  have hback : ∀ {z : Bytes}, d.fill p z = d' → ∀ {b : Bytes}, d.get? q = some (.file b) →
      d.readBytes r = .ok b := by
    rintro z rfl b hb
    exact readBytes_eq_ok.2 ⟨q, (h.sound.keeps_of_fill hplace).resolve_of_file home_fill.symm hb hq
      (.inr ⟨c, rfl⟩)⟩
  by_cases htwin : d.areTwins p q
  · cases hold : d.get? p with
    | none =>
      simp only [hold] at hfill
      subst hfill
      rw [h.sound.get?_fill_of_areTwins hplace htwin] at hget
      cases hget
      exact .inr (.inr rfl)
    | some e =>
      obtain hv | ⟨b, hb⟩ := hplace
      · simp [hv.free] at hold
      · obtain rfl : e = .file b := Option.some.inj (hold.symm.trans hb)
        simp only [hold] at hfill
        have hqb : d.get? q = some (.file b) := (h.twins.same p q htwin).trans hold
        have hold' := hback hfill hqb
        subst hfill
        rw [h.sound.get?_fill_of_areTwins (.inr ⟨b, hb⟩) htwin] at hget
        cases hget
        exact .inr (.inl ⟨b, hold', rfl⟩)
  · have hkept : ∀ {z : Bytes}, d.fill p z = d' → d.get? q = some (.file c) := by
      rintro z rfl
      rwa [TwinsAgree.get?_fill_of_not_areTwins hne htwin] at hget
    obtain ⟨p', z, hp', hz⟩ := append_eq_ok hd'
    obtain rfl := Except.ok.inj (hp.symm.trans hp')
    exact .inl (hback hz.symm (hkept hz.symm))

end AgentChain.Disk
