import AgentChain.FileTree.Disk
import Mathlib.Data.List.Induction
import Mathlib.Data.List.Nodup

/-!
# What stands on a disk after a change

Every operation on a disk is made of a few changes: something is put at a place, a file is written,
something is erased with or without what is below it, or something is given another place. For each
change one lemma says what stands at any place afterwards. A sound disk is one that a file system can
have, and every change that the operations make keeps it sound.
-/

namespace AgentChain

/-- A name that something on a disk can have. -/
structure Name.Proper (n : Name) : Prop where
  ne_nil : n ≠ []
  ne_here : n ≠ Name.here
  ne_up : n ≠ Name.up
  no_slash : Name.slash ∉ n
  no_zero : 0 ∉ n
  length_le : n.length ≤ Disk.nameLimit

instance (n : Name) : Decidable n.Proper :=
  decidable_of_iff (n ≠ [] ∧ n ≠ Name.here ∧ n ≠ Name.up ∧ Name.slash ∉ n ∧ 0 ∉ n ∧
      n.length ≤ Disk.nameLimit)
    ⟨fun h => ⟨h.1, h.2.1, h.2.2.1, h.2.2.2.1, h.2.2.2.2.1, h.2.2.2.2.2⟩,
      fun h => ⟨h.1, h.2, h.3, h.4, h.5, h.6⟩⟩

namespace Disk

variable {d : Disk} {p q : Place} {e : Entry} {c : Bytes}

/-! ### Looking up places -/

@[simp] theorem get?_nil (d : Disk) : d.get? [] = some .directory :=
  if_pos rfl

theorem get?_of_ne_nil (h : p ≠ []) : d.get? p = (d.entries.find? fun e => e.1 = p).map (·.2) :=
  if_neg h

theorem get?_congr {d d' : Disk} (h : d.entries = d'.entries) (p : Place) :
    d.get? p = d'.get? p := by
  simp only [get?, h]

theorem mem_entries_of_get? (hp : p ≠ []) (h : d.get? p = some e) : (p, e) ∈ d.entries := by
  rw [get?_of_ne_nil hp, Option.map_eq_some_iff] at h
  obtain ⟨⟨q, e'⟩, hfind, rfl⟩ := h
  have hq : q = p := by simpa using List.find?_some hfind
  exact hq ▸ List.mem_of_find?_eq_some hfind

theorem get?_ne_none_of_mem (h : (p, e) ∈ d.entries) : d.get? p ≠ none := by
  by_cases hp : p = []
  · simp [hp]
  · rw [get?_of_ne_nil hp, ne_eq, Option.map_eq_none_iff, List.find?_eq_none]
    intro hall
    simpa using hall _ h

def places (d : Disk) : List Place :=
  d.entries.map (·.1)

theorem mem_places_iff (hp : p ≠ []) : p ∈ d.places ↔ d.get? p ≠ none := by
  constructor
  · intro h
    obtain ⟨⟨q, e⟩, hmem, rfl⟩ := List.mem_map.1 h
    exact get?_ne_none_of_mem hmem
  · intro h
    obtain ⟨e, he⟩ := Option.ne_none_iff_exists'.1 h
    exact List.mem_map.2 ⟨_, mem_entries_of_get? hp he, rfl⟩

theorem get?_eq_some_iff (hd : d.places.Nodup) (hp : p ≠ []) :
    d.get? p = some e ↔ (p, e) ∈ d.entries := by
  refine ⟨mem_entries_of_get? hp, fun h => ?_⟩
  obtain ⟨e', he'⟩ := Option.ne_none_iff_exists'.1 (get?_ne_none_of_mem h)
  have hmem := mem_entries_of_get? hp he'
  have : (p, e') = (p, e) := List.inj_on_of_nodup_map hd hmem h rfl
  rw [he', (Prod.mk.inj this).2]

/-! ### Putting something at a place -/

theorem find?_putEntry (p q : Place) (e : Entry) (l : List (Place × Entry)) :
    (putEntry p e l).find? (fun x => x.1 = q) =
      if p = q then some (p, e) else l.find? fun x => x.1 = q := by
  induction l with
  | nil => by_cases h : p = q <;> simp [putEntry, h]
  | cons x l ih =>
    by_cases hx : x.1 = p
    · by_cases h : p = q <;> simp_all [putEntry]
    · by_cases h : p = q
      · have hxq : x.1 ≠ q := fun hq => hx (hq.trans h.symm)
        simp_all [putEntry]
      · by_cases hxq : x.1 = q <;> simp_all [putEntry]

theorem get?_put (hp : p ≠ []) : (d.put p e).get? q = if q = p then some e else d.get? q := by
  by_cases hq : q = []
  · subst hq
    simp [hp.symm]
  · rw [get?_of_ne_nil hq, get?_of_ne_nil hq, put, find?_putEntry]
    by_cases h : q = p
    · simp [h]
    · rw [if_neg (Ne.symm h), if_neg h]

theorem putEntry_putEntry (p : Place) (e e' : Entry) (l : List (Place × Entry)) :
    putEntry p e (putEntry p e' l) = putEntry p e l := by
  induction l with
  | nil => simp [putEntry]
  | cons x l ih => by_cases hx : x.1 = p <;> simp [putEntry, hx, ih]

theorem map_fst_putEntry (p : Place) (e : Entry) (l : List (Place × Entry)) :
    (putEntry p e l).map (·.1) =
      if p ∈ l.map (·.1) then l.map (·.1) else l.map (·.1) ++ [p] := by
  induction l with
  | nil => rfl
  | cons x l ih =>
    by_cases hx : x.1 = p
    · simp [putEntry, hx]
    · have hx' : p ≠ x.1 := fun h => hx h.symm
      by_cases hmem : p ∈ l.map (·.1) <;> simp_all [putEntry]

theorem nodup_places_put (h : d.places.Nodup) : (d.put p e).places.Nodup := by
  rw [places, put, map_fst_putEntry]
  split
  · exact h
  · exact List.nodup_append.2 ⟨h, List.nodup_singleton p, by
      rintro a ha b hb rfl
      exact absurd (List.mem_singleton.1 hb ▸ ha) ‹_›⟩

/-! ### Files at several places -/

def Alone (d : Disk) (p : Place) : Prop :=
  ∀ group ∈ d.twins, p ∉ group

theorem areTwins_iff : d.areTwins p q ↔ p = q ∨ ∃ group ∈ d.twins, p ∈ group ∧ q ∈ group := by
  simp [areTwins]

theorem Alone.areTwins_iff (h : d.Alone p) : d.areTwins p q ↔ p = q := by
  rw [Disk.areTwins_iff]
  refine ⟨?_, .inl⟩
  rintro (h' | ⟨group, hmem, hp, -⟩)
  · exact h'
  · exact absurd hp (h group hmem)

theorem find?_map_twins (d : Disk) (p q : Place) (c : Bytes) (l : List (Place × Entry)) :
    ((l.map fun x => if d.areTwins p x.1 then (x.1, .file c) else x).find? fun x => x.1 = q) =
      (l.find? fun x => x.1 = q).map fun x => if d.areTwins p q then (x.1, .file c) else x := by
  induction l with
  | nil => rfl
  | cons x l ih =>
    by_cases hx : x.1 = q
    · by_cases ht : d.areTwins p x.1 <;> simp_all
    · by_cases ht : d.areTwins p x.1 <;> simp_all

theorem get?_fill (hp : p ≠ []) : (d.fill p c).get? q =
    if q = p then some (.file c)
    else if q ≠ [] ∧ d.areTwins p q = true then (d.get? q).map fun _ => .file c
    else d.get? q := by
  by_cases hq : q = []
  · subst hq
    simp [hp.symm]
  · have htwins : (d.put p (.file c)).twins = d.twins := rfl
    have hare : (d.put p (.file c)).areTwins = d.areTwins := rfl
    simp only [fill, htwins, hare, hq, ne_eq, not_false_eq_true, true_and]
    split
    · next hempty =>
      rw [get?_put hp]
      have hnil : d.twins = [] := List.isEmpty_iff.1 hempty
      by_cases hqp : q = p
      · simp [hqp]
      · have : d.areTwins p q = false := by simp [areTwins, hnil, Ne.symm hqp]
        simp [hqp, this]
    · rw [get?_of_ne_nil hq, find?_map_twins, get?_of_ne_nil hq, put, find?_putEntry]
      by_cases hqp : q = p
      · subst hqp
        simp [areTwins]
      · rw [if_neg (Ne.symm hqp), if_neg hqp]
        cases d.entries.find? fun x => x.1 = q <;> by_cases ht : d.areTwins p q <;> simp [ht]

theorem fill_put_self : (d.put p e).fill p c = d.fill p c := by
  simp only [fill, put, putEntry_putEntry]
  rfl

theorem get?_fill_of_alone (hp : p ≠ []) (h : d.Alone p) :
    (d.fill p c).get? q = if q = p then some (.file c) else d.get? q := by
  rw [get?_fill hp]
  by_cases hqp : q = p
  · simp [hqp]
  · rw [if_neg hqp, if_neg hqp, if_neg]
    rintro ⟨-, ht⟩
    exact hqp (h.areTwins_iff.1 ht).symm

@[simp] theorem twins_fill : (d.fill p c).twins = d.twins := by
  rw [fill]
  split <;> rfl

@[simp] theorem areTwins_fill : (d.fill p c).areTwins q r = d.areTwins q r := by
  simp only [areTwins, twins_fill]

@[simp] theorem closed_fill : (d.fill p c).closed = d.closed := by
  rw [fill]
  split <;> rfl

@[simp] theorem home_fill : (d.fill p c).home = d.home := by
  rw [fill]
  split <;> rfl

theorem places_fill : (d.fill p c).places = (d.put p (.file c)).places := by
  rw [fill]
  split
  · rfl
  · simp only [places, List.map_map]
    refine List.map_congr_left fun x _ => ?_
    simp only [Function.comp_apply]
    split <;> rfl

/-! ### Erasing -/

theorem get?_without (gone : Place → Bool) :
    (d.without gone).get? q = if gone q ∧ q ≠ [] then none else d.get? q := by
  by_cases hq : q = []
  · simp [hq]
  · rw [get?_of_ne_nil hq, get?_of_ne_nil hq, without, List.find?_filter]
    by_cases hgone : gone q
    · rw [if_pos ⟨hgone, hq⟩, Option.map_eq_none_iff, List.find?_eq_none]
      intro x _ hx
      simp only [Bool.not_eq_true', decide_eq_true_eq] at hx
      rw [hx.2, hgone] at hx
      exact Bool.noConfusion hx.1
    · rw [if_neg (fun h => hgone h.1)]
      congr 2
      funext x
      by_cases hx : x.1 = q
      · simp [hx, hgone]
      · simp [hx]

theorem of_get?_without (h : (d.without gone).get? p = some e) :
    d.get? p = some e ∧ (p ≠ [] → gone p = false) := by
  rw [get?_without] at h
  split at h
  · cases h
  · next hnot => exact ⟨h, fun hp => by simpa [hp] using hnot⟩

theorem get?_erase : (d.erase p).get? q = if q = p ∧ q ≠ [] then none else d.get? q := by
  rw [erase, get?_without]
  simp only [decide_eq_true_eq]

theorem get?_eraseTree : (d.eraseTree p).get? q = if p <+: q ∧ q ≠ [] then none else d.get? q := by
  rw [eraseTree, get?_without]
  simp only [List.isPrefixOf_iff_prefix]

theorem Alone.without (h : d.Alone q) (gone : Place → Bool) : (d.without gone).Alone q := by
  intro group hg hq
  obtain ⟨group', hg', rfl⟩ := List.mem_map.1 hg
  exact h group' hg' (List.mem_filter.1 hq).1

/-! ### Moving and sharing -/

theorem get?_move (hp : p ≠ []) (hq : q ≠ []) (r : Place) :
    (d.move q p e).get? r = if r = p then some e else if r = q then none else d.get? r := by
  have hentries : (d.move q p e).entries = (((d.erase p).erase q).put p e).entries := rfl
  rw [get?_congr hentries, get?_put hp, get?_erase, get?_erase]
  by_cases hrp : r = p
  · simp [hrp]
  · by_cases hrq : r = q
    · simp [hrq, hq]
    · simp [hrp, hrq]

theorem get?_share (hp : p ≠ []) (r : Place) :
    (d.share q p e).get? r = if r = p then some e else d.get? r := by
  have hentries : (d.share q p e).entries = (d.put p e).entries := rfl
  rw [get?_congr hentries, get?_put hp]

/-- What is listed in a group after a move was listed in it before, at its old place. -/
theorem exists_of_mem_twins_move (h : group ∈ (d.move q p e).twins) :
    ∃ group' ∈ d.twins, ∀ r ∈ group, ∃ s ∈ group', s ≠ p ∧ (if s = q then p else s) = r := by
  obtain ⟨group', hg', rfl⟩ := List.mem_map.1 h
  obtain ⟨group'', hg'', rfl⟩ := List.mem_map.1 hg'
  refine ⟨group'', hg'', fun r hr => ?_⟩
  obtain ⟨s, hs, hsr⟩ := List.mem_map.1 hr
  obtain ⟨hmem, hsp⟩ := List.mem_filter.1 hs
  exact ⟨s, hmem, by simpa using hsp, hsr⟩

theorem Alone.move (h : d.Alone r) (hr : r ≠ p) : (d.move q p e).Alone r := by
  intro group hg hmem
  obtain ⟨group', hg', hall⟩ := exists_of_mem_twins_move hg
  obtain ⟨s, hs, -, hsr⟩ := hall r hmem
  split at hsr
  · exact hr hsr.symm
  · exact h group' hg' (hsr ▸ hs)

theorem Alone.move_self (h : d.Alone q) : (d.move q p e).Alone p := by
  intro group hg hmem
  obtain ⟨group', hg', hall⟩ := exists_of_mem_twins_move hg
  obtain ⟨s, hs, hsp, hs'⟩ := hall p hmem
  split at hs'
  · next hsq => exact h group' hg' (hsq ▸ hs)
  · exact hsp hs'

/-! ### Sound disks -/

/-- A place in an existing directory where nothing stands. -/
structure Vacant (d : Disk) (p : Place) : Prop where
  free : d.get? p = none
  within : ∃ base name, p = base ++ [name] ∧ d.get? base = some .directory ∧ name.Proper

theorem Vacant.ne_nil (h : d.Vacant p) : p ≠ [] := by
  obtain ⟨base, name, rfl, -⟩ := h.within
  simp

/-- A disk that a file system can have. -/
structure Sound (d : Disk) : Prop where
  nodup : d.places.Nodup
  /-- Everything stands in a directory. -/
  parent : ∀ p, p ≠ [] → d.get? p ≠ none → d.get? p.dropLast = some .directory
  proper : ∀ p, d.get? p ≠ none → ∀ n ∈ p, n.Proper
  target : ∀ p t, d.get? p = some (.symlink t) → 0 ∉ t
  /-- What stands at several places is a file at all of them or a link at all of them. -/
  twins : ∀ group ∈ d.twins, (∀ p ∈ group, ∃ c, d.get? p = some (.file c)) ∨
    ∀ p ∈ group, ∃ t, d.get? p = some (.symlink t)
  closed : ∀ p ∈ d.closed, d.get? p ≠ none

namespace Sound

section

variable (h : d.Sound)
include h

theorem get?_append_eq_none (hp : d.get? p ≠ some .directory)
    (hn : names ≠ []) : d.get? (p ++ names) = none := by
  induction names using List.reverseRecOn with
  | nil => exact absurd rfl hn
  | append_singleton names n ih =>
    by_contra hsome
    have hparent := h.parent _ (by simp) hsome
    rw [← List.append_assoc, List.dropLast_concat] at hparent
    by_cases hnames : names = []
    · exact hp (by simpa [hnames] using hparent)
    · rw [ih hnames] at hparent
      cases hparent

theorem get?_append_of_free (hp : d.get? p = none) (names : List Name) :
    d.get? (p ++ names) = none := by
  by_cases hn : names = []
  · rw [hn, List.append_nil, hp]
  · exact h.get?_append_eq_none (by simp [hp]) hn

theorem get?_of_append (hn : names ≠ [])
    (hsome : d.get? (p ++ names) ≠ none) : d.get? p = some .directory := by
  by_contra hp
  exact hsome (h.get?_append_eq_none hp hn)

theorem of_get?_concat (he : d.get? (p ++ [n]) = some e) : n.Proper ∧ d.get? p = some .directory :=
  ⟨h.proper _ (by rw [he]; simp) n (by simp),
    h.get?_of_append (List.cons_ne_nil n []) (by rw [he]; simp)⟩

theorem alone_of_ne (hfile : ∀ c, d.get? p ≠ some (.file c))
    (hlink : ∀ t, d.get? p ≠ some (.symlink t)) : d.Alone p := by
  intro group hg hp
  rcases h.twins group hg with hall | hall
  · obtain ⟨c, hc⟩ := hall p hp
    exact hfile c hc
  · obtain ⟨t, ht⟩ := hall p hp
    exact hlink t ht

theorem alone_of_free (hp : d.get? p = none) : d.Alone p :=
  h.alone_of_ne (by simp [hp]) (by simp [hp])

theorem file_of_areTwins (hp : d.get? p = some (.file c))
    (ht : d.areTwins p q) : ∃ c', d.get? q = some (.file c') := by
  rcases areTwins_iff.1 ht with rfl | ⟨group, hg, hpg, hqg⟩
  · exact ⟨c, hp⟩
  · rcases h.twins group hg with hall | hall
    · exact hall q hqg
    · obtain ⟨t, ht⟩ := hall p hpg
      simp [hp] at ht

theorem proper_of_vacant (hp : d.Vacant p) : ∀ n ∈ p, n.Proper := by
  obtain ⟨base, name, rfl, hbase, hname⟩ := hp.within
  intro n hn
  rcases List.mem_append.1 hn with hn | hn
  · exact h.proper base (by simp [hbase]) n hn
  · exact List.mem_singleton.1 hn ▸ hname

/-- A group whose members look like members of a group of one kind is of one kind. -/
theorem twins_of_members {d' : Disk} {group group' : List Place}
    (hg : group ∈ d.twins) (hlike : ∀ r ∈ group', ∃ s ∈ group, d'.get? r = d.get? s) :
    (∀ p ∈ group', ∃ c, d'.get? p = some (.file c)) ∨
      ∀ p ∈ group', ∃ t, d'.get? p = some (.symlink t) := by
  refine (h.twins group hg).imp ?_ ?_ <;>
  · intro hall r hr
    obtain ⟨s, hs, heq⟩ := hlike r hr
    exact heq ▸ hall s hs

theorem put (hp : d.Vacant p) (he : ∀ t, e = .symlink t → 0 ∉ t) : (d.put p e).Sound := by
  have hne := hp.ne_nil
  have hget : ∀ q, q ≠ p → (d.put p e).get? q = d.get? q := fun q hq => by
    rw [get?_put hne, if_neg hq]
  have hself : (d.put p e).get? p = some e := by rw [get?_put hne, if_pos rfl]
  have hkeep : ∀ q, d.get? q ≠ none → (d.put p e).get? q = d.get? q := fun q hq =>
    hget q fun hqp => hq (hqp ▸ hp.free)
  have hkept : ∀ q e', d.get? q = some e' → (d.put p e).get? q = some e' := fun q e' hq => by
    rw [hkeep q (by simp [hq]), hq]
  refine ⟨nodup_places_put h.nodup, ?_, ?_, ?_, ?_, ?_⟩
  · intro q hq hsome
    by_cases hqp : q = p
    · obtain ⟨base, name, hb, hbase, -⟩ := hp.within
      have hdrop : q.dropLast = base := by rw [hqp, hb, List.dropLast_concat]
      exact hdrop ▸ hkept _ _ hbase
    · exact hkept _ _ (h.parent q hq (hget q hqp ▸ hsome))
  · intro q hsome
    by_cases hqp : q = p
    · exact hqp ▸ h.proper_of_vacant hp
    · exact h.proper q (hget q hqp ▸ hsome)
  · intro q t hq
    by_cases hqp : q = p
    · rw [hqp, hself] at hq
      exact he t (Option.some.inj hq)
    · exact h.target q t (hget q hqp ▸ hq)
  · intro group hg
    refine h.twins_of_members hg fun q hq => ⟨q, hq, hkeep q fun hnone => ?_⟩
    exact h.alone_of_free hnone group hg hq
  · intro q hq
    rw [hkeep q (h.closed q hq)]
    exact h.closed q hq

theorem get?_fill_cases (hp : p ≠ [])
    (hfile : d.get? p = none ∨ ∃ c, d.get? p = some (.file c)) (q : Place) :
    (d.fill p c).get? q = d.get? q ∨
      ((d.fill p c).get? q = some (.file c) ∧ (q = p ∨ ∃ c', d.get? q = some (.file c'))) := by
  rw [get?_fill hp]
  by_cases hqp : q = p
  · exact .inr ⟨if_pos hqp, .inl hqp⟩
  · rw [if_neg hqp]
    split
    · next ht =>
      rcases hfile with hnone | ⟨c', hc'⟩
      · exact absurd ((h.alone_of_free hnone).areTwins_iff.1 ht.2).symm hqp
      · obtain ⟨c'', hc''⟩ := h.file_of_areTwins hc' ht.2
        exact .inr ⟨by simp [hc''], .inr ⟨c'', hc''⟩⟩
    · exact .inl rfl

theorem fill_of_file (hp : d.get? p = some (.file c')) : (d.fill p c).Sound := by
  have hne : p ≠ [] := by
    rintro rfl
    simp at hp
  have hcases := h.get?_fill_cases (c := c) hne (.inr ⟨c', hp⟩)
  have hkeep : ∀ q e', (∀ c, e' ≠ .file c) → ((d.fill p c).get? q = some e' ↔ d.get? q = some e') := by
    intro q e' he'
    rcases hcases q with heq | ⟨heq, rfl | ⟨c'', hc''⟩⟩
    · rw [heq]
    · simp [heq, hp, (he' _).symm]
    · simp [heq, hc'', (he' _).symm]
  have hnone : ∀ q, (d.fill p c).get? q = none ↔ d.get? q = none := by
    intro q
    rcases hcases q with heq | ⟨heq, rfl | ⟨c'', hc''⟩⟩
    · rw [heq]
    · simp [heq, hp]
    · simp [heq, hc'']
  have hfiles : ∀ q, (∃ c', d.get? q = some (.file c')) → ∃ c', (d.fill p c).get? q = some (.file c') := by
    rintro q ⟨c'', hc''⟩
    rcases hcases q with heq | ⟨heq, -⟩
    · exact ⟨c'', heq.trans hc''⟩
    · exact ⟨c, heq⟩
  refine ⟨?_, ?_, ?_, ?_, ?_, ?_⟩
  · rw [places_fill]
    exact nodup_places_put h.nodup
  · intro q hq hsome
    rw [hkeep _ _ (by simp)]
    exact h.parent q hq fun hn => hsome ((hnone q).2 hn)
  · exact fun q hsome => h.proper q fun hn => hsome ((hnone q).2 hn)
  · exact fun q t hq => h.target q t ((hkeep q _ (by simp)).1 hq)
  · intro group hg
    rw [twins_fill] at hg
    refine (h.twins group hg).imp (fun hall q hq => hfiles q (hall q hq)) fun hall q hq => ?_
    obtain ⟨t, ht⟩ := hall q hq
    exact ⟨t, (hkeep q _ (by simp)).2 ht⟩
  · intro q hq
    rw [closed_fill] at hq
    exact fun hn => h.closed q hq ((hnone q).1 hn)

theorem fill (hp : d.Vacant p ∨ ∃ c', d.get? p = some (.file c')) : (d.fill p c).Sound := by
  rcases hp with hp | ⟨c', hp⟩
  · rw [← fill_put_self (e := .file c)]
    have hself : (d.put p (.file c)).get? p = some (.file c) := by rw [get?_put hp.ne_nil, if_pos rfl]
    exact (h.put hp (by simp)).fill_of_file hself
  · exact h.fill_of_file hp

/-- Places erased, with everything below them. -/
theorem without {gone : Place → Bool}
    (hbelow : ∀ p, p ≠ [] → d.get? p ≠ none → gone p.dropLast → gone p) :
    (d.without gone).Sound := by
  have hkept : ∀ q, gone q = false → (d.without gone).get? q = d.get? q := by
    intro q hq
    rw [get?_without, if_neg (by simp [hq])]
  have hsome : ∀ q, (d.without gone).get? q ≠ none → d.get? q ≠ none := by
    intro q hq
    obtain ⟨e, he⟩ := Option.ne_none_iff_exists'.1 hq
    simp [(of_get?_without he).1]
  refine ⟨?_, ?_, ?_, ?_, ?_, ?_⟩
  · exact h.nodup.sublist (List.filter_sublist.map _)
  · intro q hq hne
    have hd := hsome q hne
    rw [get?_without] at hne ⊢
    split at hne
    · exact absurd rfl hne
    · next hgone =>
      have hq' : gone q.dropLast ≠ true := fun hg => hgone ⟨hbelow q hq hd hg, hq⟩
      rw [if_neg (fun hg => hq' hg.1)]
      exact h.parent q hq hd
  · exact fun q hq => h.proper q (hsome q hq)
  · exact fun q t hq => h.target q t (of_get?_without hq).1
  · intro group hg
    obtain ⟨group', hg', rfl⟩ := List.mem_map.1 hg
    refine h.twins_of_members hg' fun q hq => ?_
    obtain ⟨hmem, hgone⟩ := List.mem_filter.1 hq
    exact ⟨q, hmem, hkept q (by simpa using hgone)⟩
  · intro q hq
    obtain ⟨hmem, hgone⟩ := List.mem_filter.1 hq
    rw [hkept q (by simpa using hgone)]
    exact h.closed q hmem

theorem erase (hp : d.get? p ≠ some .directory) : (d.erase p).Sound := by
  refine h.without fun q hq hsome hgone => ?_
  have hparent := h.parent q hq hsome
  rw [of_decide_eq_true hgone] at hparent
  exact absurd hparent hp

theorem eraseTree : (d.eraseTree p).Sound := by
  refine h.without fun q hq hsome hgone => ?_
  rw [List.isPrefixOf_iff_prefix] at hgone ⊢
  exact hgone.trans (List.dropLast_prefix q)

theorem exists_base (hne : p ≠ []) (hp : d.Vacant p ∨ d.get? p ≠ none) :
    ∃ base name, p = base ++ [name] ∧ d.get? base = some .directory ∧ name.Proper := by
  rcases hp with hp | hp
  · exact hp.within
  · refine ⟨p.dropLast, p.getLast hne, (List.dropLast_append_getLast hne).symm, h.parent p hne hp, ?_⟩
    exact h.proper p hp _ (List.getLast_mem hne)

theorem with_twins {twins}
    (htwins : ∀ group ∈ twins, (∀ p ∈ group, ∃ c, d.get? p = some (.file c)) ∨
      ∀ p ∈ group, ∃ t, d.get? p = some (.symlink t)) : ({ d with twins } : Disk).Sound :=
  ⟨h.nodup, h.parent, h.proper, h.target, htwins, h.closed⟩

theorem move (hq : d.get? q = some e) (he : e ≠ .directory)
    (hp : d.Vacant p ∨ ∃ e', d.get? p = some e' ∧ e' ≠ .directory) : (d.move q p e).Sound := by
  have hqne : q ≠ [] := by
    rintro rfl
    rw [get?_nil] at hq
    exact he (Option.some.inj hq).symm
  have hpdir : d.get? p ≠ some .directory := by
    rcases hp with hp | ⟨e', hp, he'⟩
    · simp [hp.free]
    · simpa [hp] using he'
  have hpne : p ≠ [] := by
    rintro rfl
    exact hpdir (get?_nil d)
  have hq' : (d.erase p).get? q ≠ some .directory := by
    rw [get?_erase]
    split
    · simp
    · simpa [hq] using he
  have hget : ∀ r, r ≠ p → r ≠ q → ((d.erase p).erase q).get? r = d.get? r := by
    intro r hrp hrq
    rw [get?_erase, if_neg (fun h => hrq h.1), get?_erase, if_neg (fun h => hrp h.1)]
  have hvacant : ((d.erase p).erase q).Vacant p := by
    obtain ⟨base, name, hb, hbase, hname⟩ :=
      h.exists_base hpne (hp.imp_right fun ⟨e', hp, _⟩ => by simp [hp])
    refine ⟨?_, base, name, hb, ?_, hname⟩
    · rw [get?_erase, get?_erase]
      simp [hpne]
    · rw [hget base (fun hbp => hpdir (hbp ▸ hbase)) fun hbq => ?_, hbase]
      rw [hbq, hq] at hbase
      exact he (Option.some.inj hbase)
  have hput := ((h.erase hpdir).erase hq').put (e := e) hvacant fun t ht => h.target q t (ht ▸ hq)
  refine hput.with_twins fun group hg => ?_
  obtain ⟨group', hg', hall⟩ := exists_of_mem_twins_move (e := e) hg
  refine h.twins_of_members hg' fun r hr => ?_
  obtain ⟨s, hs, hsp, rfl⟩ := hall r hr
  refine ⟨s, hs, ?_⟩
  by_cases hsq : s = q
  · rw [if_pos hsq, get?_put hpne, if_pos rfl, hsq, hq]
  · rw [if_neg hsq, get?_put hpne, if_neg hsp, hget s hsp hsq]

theorem share (hq : d.get? q = some e) (he : e ≠ .directory) (hp : d.Vacant p) :
    (d.share q p e).Sound := by
  have hput := h.put (e := e) hp fun t ht => h.target q t (ht ▸ hq)
  have hself : (d.put p e).get? p = some e := by rw [get?_put hp.ne_nil, if_pos rfl]
  have hkept : ∀ r, d.get? r ≠ none → (d.put p e).get? r = d.get? r := by
    intro r hr
    rw [get?_put hp.ne_nil, if_neg]
    rintro rfl
    exact hr hp.free
  have hqput : (d.put p e).get? q = some e := by rw [hkept q (by simp [hq]), hq]
  refine hput.with_twins fun group hg => ?_
  split at hg
  · obtain ⟨group', hg', rfl⟩ := List.mem_map.1 hg
    split
    · next hmem =>
      have hmem : q ∈ group' := by simpa using hmem
      refine hput.twins_of_members hg' fun r hr => ?_
      rcases List.mem_cons.1 hr with rfl | hr
      · exact ⟨q, hmem, hself.trans hqput.symm⟩
      · exact ⟨r, hr, rfl⟩
    · exact hput.twins group' hg'
  · rcases List.mem_cons.1 hg with rfl | hg
    · have hboth : ∀ r ∈ [q, p], (d.put p e).get? r = some e := by
        intro r hr
        rcases List.mem_cons.1 hr with rfl | hr
        · exact hqput
        · exact List.mem_singleton.1 hr ▸ hself
      cases e with
      | file c => exact .inl fun r hr => ⟨c, hboth r hr⟩
      | symlink t => exact .inr fun r hr => ⟨t, hboth r hr⟩
      | directory => exact absurd rfl he
    · exact hput.twins group hg

end

end Sound

/-! ### Checking a disk -/

def fits (d : Disk) : Place × Entry → Bool
  | (p, .symlink t) => (d.get? p.dropLast = some .directory && p.all (·.Proper)) && !t.contains 0
  | (p, _) => d.get? p.dropLast = some .directory && p.all (·.Proper)

theorem fits_iff : d.fits entry ↔
    d.get? entry.1.dropLast = some .directory ∧ (∀ n ∈ entry.1, n.Proper) ∧
      ∀ t, entry.2 = .symlink t → 0 ∉ t := by
  obtain ⟨p, e⟩ := entry
  cases e <;> simp [fits, and_assoc]

/-- A disk with neither files at several places nor closed directories is sound if everything on it
can stand where it does. -/
theorem sound_of_fits (h : d.places.Nodup ∧ d.entries.all d.fits ∧ d.twins = [] ∧
    d.closed = []) : d.Sound := by
  obtain ⟨hnodup, h, htwins, hclosed⟩ := h
  have hfits : ∀ p e, p ≠ [] → d.get? p = some e → d.get? p.dropLast = some .directory ∧
      (∀ n ∈ p, n.Proper) ∧ ∀ t, e = .symlink t → 0 ∉ t := fun p e hp he =>
    fits_iff.1 (List.all_eq_true.1 h _ (mem_entries_of_get? hp he))
  refine ⟨hnodup, fun p hp hsome => ?_, fun p hsome n hn => ?_, fun p t ht => ?_, by simp [htwins],
    by simp [hclosed]⟩
  · obtain ⟨e, he⟩ := Option.ne_none_iff_exists'.1 hsome
    exact (hfits p e hp he).1
  · obtain ⟨e, he⟩ := Option.ne_none_iff_exists'.1 hsome
    exact (hfits p e (List.ne_nil_of_mem hn) he).2.1 n hn
  · have hp : p ≠ [] := by
      rintro rfl
      simp at ht
    exact (hfits p _ hp ht).2.2 t rfl

end Disk

end AgentChain
