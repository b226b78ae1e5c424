import AgentChain.Proofs.FileTree.Operations

/-!
# Changes at some places only

What is done to a disk is often confined to some places, and everything elsewhere is as it was. A
path then still leads where it led, as long as it does not lead through one of these places.
-/

namespace AgentChain.Disk

variable {d d' d'' : Disk} {T T' : Place → Prop} {p q P : Place} {e : Entry} {b c : Bytes}
  {gone : Place → Bool}

/-- Everything but what stands at some places is as it was. -/
structure Changes (T : Place → Prop) (d d' : Disk) : Prop where
  entry : ∀ q, ¬ T q → d'.get? q = d.get? q
  alone : ∀ q, ¬ T q → d.Alone q → d'.Alone q
  closed : ∀ q, q ∈ d'.closed → q ∈ d.closed
  still_closed : ∀ q, ¬ T q → q ∈ d.closed → q ∈ d'.closed
  home : d'.home = d.home

namespace Changes

theorem refl (T : Place → Prop) (d : Disk) : Changes T d d :=
  ⟨fun _ _ => rfl, fun _ _ h => h, fun _ h => h, fun _ _ h => h, rfl⟩

theorem trans (h : Changes T d d') (h' : Changes T d' d'') : Changes T d d'' where
  entry q hq := (h'.entry q hq).trans (h.entry q hq)
  alone q hq ha := h'.alone q hq (h.alone q hq ha)
  closed q hq := h.closed q (h'.closed q hq)
  still_closed q hq hclosed := h'.still_closed q hq (h.still_closed q hq hclosed)
  home := h'.home.trans h.home

theorem mono (h : Changes T d d') (hT : ∀ q, T q → T' q) : Changes T' d d' where
  entry q hq := h.entry q fun hq' => hq (hT q hq')
  alone q hq := h.alone q fun hq' => hq (hT q hq')
  closed := h.closed
  still_closed q hq := h.still_closed q fun hq' => hq (hT q hq')
  home := h.home

end Changes

/-! ### Operations -/

theorem changes_fill (hp : p ≠ []) (h : d.Alone p) : Changes (· = p) d (d.fill p c) where
  entry q hq := by rw [get?_fill_of_alone hp h, if_neg hq]
  alone q _ hq := by rwa [Alone, twins_fill]
  closed q hq := by rwa [closed_fill] at hq
  still_closed q _ hq := by rwa [closed_fill]
  home := home_fill

theorem changes_put (hp : p ≠ []) : Changes (· = p) d (d.put p e) where
  entry q hq := by rw [get?_put hp, if_neg hq]
  alone _ _ hq := hq
  closed _ hq := hq
  still_closed _ _ hq := hq
  home := rfl

theorem changes_without (gone : Place → Bool) : Changes (gone ·) d (d.without gone) where
  entry q hq := by rw [get?_without, if_neg fun h => hq h.1]
  alone q _ hq := hq.without gone
  closed q hq := (List.mem_filter.1 hq).1
  still_closed q hq hclosed := List.mem_filter.2 ⟨hclosed, by simpa using hq⟩
  home := rfl

theorem changes_erase : Changes (· = p) d (d.erase p) :=
  (changes_without _).mono fun _ => of_decide_eq_true

theorem changes_eraseTree : Changes (p <+: ·) d (d.eraseTree p) :=
  (changes_without _).mono fun _ => List.isPrefixOf_iff_prefix.1

theorem changes_move (hp : p ≠ []) (hq : q ≠ []) :
    Changes (fun r => r = p ∨ r = q) d (d.move q p e) where
  entry r hr := by
    rw [get?_move hp hq, if_neg fun h => hr (.inl h), if_neg fun h => hr (.inr h)]
  alone r hr ha := ha.move fun h => hr (.inl h)
  closed r hr := (List.mem_filter.1 (List.mem_filter.1 hr).1).1
  still_closed r hr hclosed := by
    rw [not_or] at hr
    exact List.mem_filter.2 ⟨List.mem_filter.2 ⟨hclosed, by simpa using hr.1⟩, by simpa using hr.2⟩
  home := rfl

/-! ### Paths apart from the changes -/

/-- A disk without what stands at some places, where the same directories are closed. -/
def apart (d : Disk) (gone : Place → Bool) : Disk :=
  { d.without gone with closed := d.closed }

theorem get?_apart (gone : Place → Bool) :
    (d.apart gone).get? q = if gone q ∧ q ≠ [] then none else d.get? q :=
  (get?_congr rfl q).trans (get?_without gone)

theorem keeps_apart (gone : Place → Bool) : (d.apart gone).Keeps d where
  directory _ hq := (of_get?_without hq).1
  link _ _ hq := (of_get?_without hq).1
  closed _ hq := hq

theorem keeps_apart_of_imp (h : ∀ q, gone' q → gone q) : (d.apart gone).Keeps (d.apart gone') := by
  have hkept : ∀ q e, (d.apart gone).get? q = some e → (d.apart gone').get? q = some e := by
    intro q e hq
    rw [get?_apart] at hq ⊢
    split at hq
    · cases hq
    · next hnot => rwa [if_neg fun hq' => hnot ⟨h q hq'.1, hq'.2⟩]
  exact ⟨fun q => hkept q _, fun q t => hkept q _, fun _ hq => hq⟩

theorem LeadsTo.of_apart (h : (d.apart gone).LeadsTo b P) : d.LeadsTo b P :=
  h.mono (keeps_apart gone) rfl

/-- Directories and links outside of some places are kept outside of them. -/
theorem Keeps.apart (h : ∀ q e, gone q ≠ true → (∀ c, e ≠ .file c) → d.get? q = some e →
    d'.get? q = some e) (hclosed : ∀ q, q ∈ d'.closed → q ∈ d.closed) :
    (d.apart gone).Keeps (d'.apart gone) := by
  have hkept : ∀ q e, (∀ c, e ≠ .file c) → (d.apart gone).get? q = some e →
      (d'.apart gone).get? q = some e := by
    intro q e he hq
    rw [get?_apart] at hq ⊢
    split at hq
    · cases hq
    · next hnot =>
      rw [if_neg hnot]
      by_cases hgone : gone q
      · have hnil : q = [] := by simpa [hgone] using hnot
        subst hnil
        rw [get?_nil] at hq ⊢
        exact hq
      · exact h q e hgone he hq
  exact ⟨fun q => hkept q _ (by simp), fun q t => hkept q _ (by simp), hclosed⟩

theorem Changes.leadsTo (h : Changes T d d') (hT : ∀ q, T q → gone q)
    (hP : (d.apart gone).LeadsTo b P) : (d'.apart gone).LeadsTo b P := by
  refine hP.mono (.apart (fun q e hq _ he => ?_) h.closed) h.home
  rw [h.entry q fun hTq => hq (hT q hTq), he]

theorem Grows.leadsTo (h : d.Grows d') (hP : (d.apart gone).LeadsTo b P) :
    (d'.apart gone).LeadsTo b P := by
  refine hP.mono (.apart (fun q e _ he hq => ?_) h.closed) h.home
  cases e with
  | file c => exact absurd rfl (he c)
  | directory => exact h.directory q hq
  | symlink t => exact (h.link q t).2 hq

/-! ### Plain places -/

/-- No link stands at a place, and no file that stands elsewhere too. -/
structure Plain (d : Disk) (p : Place) : Prop where
  link : ∀ t, d.get? p ≠ some (.symlink t)
  alone : d.Alone p

theorem Plain.changes (h : d.Plain p) (hc : Changes T d d') (hp : ¬ T p) : d'.Plain p where
  link t := by
    rw [hc.entry p hp]
    exact h.link t
  alone := hc.alone p hp h.alone

theorem Plain.grows (h : d.Plain p) (hg : d.Grows d') : d'.Plain p where
  link t ht := h.link t ((hg.link p t).1 ht)
  alone := hg.alone p h.alone

theorem Plain.fill (h : d.Plain p) (hp : p ≠ []) : (d.fill p c).Plain p where
  link t := by simp [get?_fill_of_alone hp h.alone]
  alone := by
    rw [Alone, twins_fill]
    exact h.alone

theorem Sound.plain_of_free (hd : d.Sound) (hp : d.get? p = none) : d.Plain p :=
  ⟨by simp [hp], hd.alone_of_free hp⟩

end AgentChain.Disk
