import AgentChain.Proofs.Building
import AgentChain.Proofs.FileTree.Collection
import AgentChain.Proofs.FileTree.Workplace
import AgentChain.Proofs.Text.Lossy

/-!
# Disks whose names are texts

Files are listed by their names as they are shown, and a name that is no text is shown with
replacement characters, so that two files may be shown alike. On a legible disk this cannot happen:
every name on it is a text, and so is the target of every link. Whatever is written through a path
that is a text leaves a legible disk legible, since the last name of a new place is a segment of the
path or of the target of a link.
-/

namespace AgentChain

open Bytes (ofText)

/-! ### Texts -/

namespace Bytes

variable {b s : Bytes}

def IsText (b : Bytes) : Prop :=
  (text? b).isSome = true

instance (b : Bytes) : Decidable b.IsText :=
  inferInstanceAs (Decidable (_ = _))

theorem isText_iff : b.IsText ↔ ∃ t, ofText t = b := by
  rw [IsText, Option.isSome_iff_exists]
  constructor
  · rintro ⟨t, ht⟩
    exact ⟨t, ofText_of_text? ht⟩
  · rintro ⟨t, rfl⟩
    exact ⟨t, text?_ofText t⟩

@[simp] theorem isText_ofText (t : String) : (ofText t).IsText :=
  isText_iff.2 ⟨t, rfl⟩

theorem IsText.ofText_lossyText (h : b.IsText) : ofText (lossyText b) = b := by
  obtain ⟨t, rfl⟩ := isText_iff.1 h
  rw [lossyText_ofText]

theorem IsText.of_mem_split (h : b.IsText) (hs : s ∈ split Name.slash b) : s.IsText := by
  obtain ⟨t, rfl⟩ := isText_iff.1 h
  rw [split_ofText, List.mem_map] at hs
  obtain ⟨part, -, rfl⟩ := hs
  exact isText_ofText part

end Bytes

theorem Route.isText_written (path : String) : (path : Route).bytes.IsText :=
  Bytes.isText_ofText path

namespace Disk

variable {d d' : Disk} {f : Bool} {l : Nat} {r : Route} {base p : Place} {segs : List Name}
  {c : Bytes}

/-! ### Names as they are shown -/

/-- Proper names that are texts, at least one. They can be told from how they are shown. -/
structure LegiblePath (names : List Name) : Prop where
  ne_nil : names ≠ []
  proper : ∀ n ∈ names, n.Proper
  isText : ∀ n ∈ names, n.IsText

namespace LegiblePath

variable {names other : List Name}

section

variable (h : LegiblePath names)
include h

theorem isName : ∀ s ∈ names.map Bytes.lossyText, Path.IsName s := by
  intro s hs
  obtain ⟨n, hn, rfl⟩ := List.mem_map.1 hs
  exact (h.proper n hn).isName_lossyText

theorem map_ofText : (names.map Bytes.lossyText).map ofText = names := by
  rw [List.map_map]
  exact (List.map_congr_left fun n hn => (h.isText n hn).ofText_lossyText).trans (List.map_id names)

theorem split_shown : Bytes.split Name.slash (ofText (shown names)) = names := by
  rw [Bytes.split_ofText, shown, Text.split_join (by simpa using h.ne_nil) fun s hs =>
    (h.isName s hs).no_slash, h.map_ofText]

theorem shown_injective (h' : LegiblePath other)
    (heq : shown names = shown other) : names = other := by
  rw [← h.split_shown, heq, h'.split_shown]

theorem bytes_eq (path : String) :
    (⟨path, names⟩ : Route).bytes = ofText (Path.join path (shown names)) := by
  rw [shown, Path.join_join_names (by simpa using h.ne_nil) h.isName]
  have hfold : ∀ texts : List String, (∀ s ∈ texts, Path.IsName s) →
      ofText (Path.under path texts) = (texts.map ofText).foldl Name.below (ofText path) := by
    intro texts htexts
    induction texts using List.reverseRecOn with
    | nil => rfl
    | append_singleton texts s ih =>
      rw [Path.under_concat, (htexts s (by simp)).ofText_join,
        ih fun t ht => htexts t (List.mem_append_left _ ht), List.map_append, List.foldl_append]
      rfl
  rw [hfold _ h.isName, h.map_ofText]
  rfl

theorem followable_shown (hr : Followable (⟨path, names⟩ : Route).bytes) :
    Followable (ofText (shown names)) := by
  have habs : Path.isAbsolute (shown names) = false := by
    rw [← Path.isAbsolute_ofText, Name.isAbsolute, decide_eq_false_iff_not]
    intro hhead
    obtain ⟨rest, hrest⟩ := List.head?_eq_some_iff.1 hhead
    have hsplit := h.split_shown
    rw [hrest, Bytes.split_cons_self] at hsplit
    exact (h.proper [] (by simp [← hsplit])).ne_nil rfl
  rw [h.bytes_eq, Path.ofText_join habs] at hr
  refine ⟨fun hzero => hr.no_zero (Name.mem_below (.inr hzero)), ?_⟩
  exact Nat.lt_of_le_of_lt (Nat.le_of_add_left_le (Name.length_le_length_below _ _)) hr.length_lt

end

end LegiblePath

/-! ### Trees with legible names -/

section Trees

variable {found : List (List Name × Bytes)}

def LegibleTree (d : Disk) (directory : String) : Prop :=
  ∀ found, d.treeFiles directory = .ok found → ∀ file ∈ found, ∀ n ∈ file.1, n.IsText

theorem exists_sorted_of_collect (h : d.treeFiles r = .ok found) :
    ∃ sorted : List (List Name × Bytes), sorted.Perm found ∧
      d.collect r = .ok (sorted.map (collected r)) ∧
      sorted.Pairwise fun a b => shown a.1 ≤ shown b.1 := by
  refine ⟨found.mergeSort fun a b => decide (shown a.1 ≤ shown b.1), List.mergeSort_perm _ _, ?_, ?_⟩
  · have hsort := List.map_mergeSort (r := fun a b => decide (shown a.1 ≤ shown b.1))
      (s := fun a b => decide (a.name ≤ b.name)) (f := collected r) (l := found) fun _ _ _ _ => rfl
    rw [collect_eq, h, hsort]
    rfl
  · simpa using @List.pairwise_mergeSort _ (fun a b => decide (shown a.1 ≤ shown b.1))
      (fun _ _ _ hab hbc => by
        rw [decide_eq_true_eq] at hab hbc ⊢
        exact String.le_trans hab hbc)
      (fun a b => by simpa using String.le_total (shown a.1) (shown b.1)) found

theorem exists_treeFiles_of_collect (h : d.collect r = .ok files) :
    ∃ found sorted : List (List Name × Bytes), d.treeFiles r = .ok found ∧ sorted.Perm found ∧
      files = sorted.map (collected r) ∧ sorted.Pairwise fun a b => shown a.1 ≤ shown b.1 := by
  obtain ⟨found, hfound, -⟩ := map_eq_ok.1 (collect_eq d r ▸ h)
  obtain ⟨sorted, hperm, hsorted, hascending⟩ := exists_sorted_of_collect hfound
  exact ⟨found, sorted, hfound, hperm, Except.ok.inj (h.symm.trans hsorted), hascending⟩

theorem Sound.treeFiles_cases (hd : d.Sound) (hfound : d.treeFiles r = .ok found) :
    (∃ c, found = [([], c)]) ∨ ∀ file ∈ found, file.1 ≠ [] ∧ ∀ n ∈ file.1, n.Proper := by
  rcases hres : d.resolve true r with fault | ⟨P, e⟩ | ⟨P, s⟩
  · simp [treeFiles, hres] at hfound
  · cases e with
    | directory =>
      refine .inr fun file hfile => ?_
      obtain ⟨hne, hget⟩ := (hd.mem_treeFiles_iff hres hfound).1 hfile
      exact ⟨hne, fun n hn => hd.proper _ (by rw [hget]; simp) n (List.mem_append_right P hn)⟩
    | file c =>
      rw [treeFiles, hres] at hfound
      simp only at hfound
      split at hfound <;> cases hfound
      · exact .inr (by simp)
      · exact .inl ⟨c, rfl⟩
    | symlink t =>
      rw [treeFiles, hres] at hfound
      cases hfound
      exact .inr (by simp)
  · simp [treeFiles, hres] at hfound

theorem Sound.proper_of_treeFiles (hd : d.Sound) (hfound : d.treeFiles r = .ok found) :
    ∀ file ∈ found, ∀ n ∈ file.1, n.Proper := by
  rcases hd.treeFiles_cases hfound with ⟨c, rfl⟩ | hnames
  · simp
  · exact fun file hfile => (hnames file hfile).2

theorem Sound.nodup_shown (hd : d.Sound) (hfound : d.treeFiles r = .ok found)
    (htext : ∀ file ∈ found, ∀ n ∈ file.1, n.IsText) :
    (found.map fun file => shown file.1).Nodup := by
  rcases hd.treeFiles_cases hfound with ⟨c, rfl⟩ | hnames
  · simp
  have hlegible : ∀ file ∈ found, LegiblePath file.1 := fun file hfile =>
    ⟨(hnames file hfile).1, (hnames file hfile).2, htext file hfile⟩
  have hnodup := hd.nodup_treeFiles hfound
  refine (List.nodup_map_iff_inj_on hnodup.of_map).2 fun a ha b hb heq => ?_
  exact List.inj_on_of_nodup_map hnodup ha hb ((hlegible a ha).shown_injective (hlegible b hb) heq)

end Trees

/-! ### Legible disks -/

/-- A sound disk on which all targets of links are texts, and the names in some directories are. -/
structure LegibleIn (A : Place → Prop) (d : Disk) : Prop where
  sound : d.Sound
  names : ∀ p n, A p → d.get? (p ++ [n]) ≠ none → n.IsText
  targets : ∀ p t, d.get? p = some (.symlink t) → t.IsText

/-- A sound disk on which all names and all targets of links are texts. -/
abbrev Legible (d : Disk) : Prop :=
  d.LegibleIn fun _ => True

namespace LegibleIn

section

variable {A : Place → Prop} (hd : d.LegibleIn A)
include hd

theorem tree (hA : ∀ P e, d.resolve true r = .ok (.present P e) → ∀ q, P <+: q → A q)
    (hfound : d.treeFiles r = .ok found) : ∀ file ∈ found, ∀ n ∈ file.1, n.IsText := by
  intro file hfile n hn
  obtain ⟨P, e, hres, hget⟩ := hd.sound.exists_get?_of_treeFiles hfound hfile
  obtain ⟨above, rest, heq⟩ := List.append_of_mem hn
  refine hd.names (P ++ above) n (hA P e hres _ (List.prefix_append ..)) fun hfree => ?_
  have hnone := hd.sound.get?_append_of_free hfree rest
  rw [heq] at hget
  simp [hget] at hnone

/-- A name that is free and that a path leads to is a text. -/
theorem isText_of_walkLinks (hsegs : ∀ n ∈ segs, n.IsText)
    (h : d.walkLinks f l base segs = .ok (.vacant (p ++ [n]) s)) : n.IsText := by
  have hrest : ∀ {s segs}, (∀ n ∈ s :: segs, Bytes.IsText n) → ∀ n ∈ segs, n.IsText :=
    fun hsegs n hn => hsegs n (List.mem_cons_of_mem _ hn)
  rw [walkLinks_eq_ok_iff] at h
  generalize ht : Target.vacant (p ++ [n]) s = t at h
  induction h with
  | nil | file | shown => cases ht
  | idle _ ih => exact ih (hrest hsegs) ht
  | here _ _ ih => exact ih (hrest hsegs) ht
  | up _ _ ih => exact ih (hrest hsegs) ht
  | vacant =>
    obtain ⟨heq, -⟩ := Target.vacant.inj ht
    obtain ⟨-, ⟨⟩⟩ := List.append_inj' heq rfl
    exact hsegs _ List.mem_cons_self
  | down _ _ _ _ ih => exact ih (hrest hsegs) ht
  | link _ _ found _ _ ih =>
    refine ih (fun m hm => ?_) ht
    rcases List.mem_append.1 hm with hm | hm
    · exact (hd.targets _ _ found).of_mem_split hm
    · exact hrest hsegs m hm

theorem isText_of_vacant (hr : r.bytes.IsText)
    (h : d.resolve f r = .ok (.vacant (p ++ [n]) s)) : n.IsText := by
  have hfollow := followable_of_resolve h
  by_cases hne : r.bytes = []
  · simp [resolve, hne] at h
  · rw [resolve_eq hne hfollow] at h
    exact hd.isText_of_walkLinks (fun n hn => hr.of_mem_split hn) h

theorem of_entries (hd' : d'.Sound)
    (hnames : ∀ q n, d'.get? (q ++ [n]) ≠ none → d.get? (q ++ [n]) = none → n.IsText)
    (hlink : ∀ q t, d'.get? q = some (.symlink t) → ∃ q', d.get? q' = some (.symlink t)) :
    d'.LegibleIn A where
  sound := hd'
  names q n hA hq := by
    by_cases hfree : d.get? (q ++ [n]) = none
    · exact hnames q n hq hfree
    · exact hd.names q n hA hfree
  targets q t hq := by
    obtain ⟨q', hq'⟩ := hlink q t hq
    exact hd.targets q' t hq'

theorem fill (hp : d.Vacant p ∨ ∃ c', d.get? p = some (.file c'))
    (hname : ∀ q n, p = q ++ [n] → d.get? p = none → n.IsText) : (d.fill p c).LegibleIn A := by
  have hne : p ≠ [] := by
    rcases hp with hp | ⟨c', hp⟩
    · exact hp.ne_nil
    · rintro rfl
      simp at hp
  have hcases := hd.sound.get?_fill_cases (c := c) hne (hp.imp Vacant.free id)
  refine hd.of_entries (hd.sound.fill hp) (fun q n hq hfree => ?_) fun q t hq => ?_
  · rcases hcases (q ++ [n]) with heq | ⟨-, rfl | ⟨c', hc'⟩⟩
    · exact absurd (heq.trans hfree) hq
    · exact hname q n rfl hfree
    · rw [hfree] at hc'
      cases hc'
  · rcases hcases q with heq | ⟨heq, -⟩
    · exact ⟨q, heq.symm.trans hq⟩
    · rw [heq] at hq
      cases hq

theorem fill_of_writePlace (hr : r.bytes.IsText) (h : d.writePlace r = .ok p) :
    (d.fill p c).LegibleIn A := by
  refine hd.fill (hd.sound.of_writePlace h) fun q n heq hfree => ?_
  rcases writePlace_eq_ok h with ⟨c, hres⟩ | hres
  · rw [hd.sound.get?_of_resolve hres (by simp)] at hfree
    cases hfree
  · exact hd.isText_of_vacant hr (heq ▸ hres)

theorem createDirectory (hr : r.bytes.IsText) (h : d.createDirectory r = .ok d') :
    d'.LegibleIn A := by
  have hd' := hd.sound.createDirectory h
  obtain ⟨p, s, hp, rfl⟩ := createDirectory_eq_ok h
  have hne := (hd.sound.vacant_of_resolve hp).ne_nil
  refine hd.of_entries hd' (fun q n hq hfree => ?_) fun q t hq => ?_
  · rw [get?_put hne] at hq
    split at hq
    · next heq => exact hd.isText_of_vacant hr (heq ▸ hp)
    · exact absurd hfree hq
  · rw [get?_put hne] at hq
    split at hq
    · cases hq
    · exact ⟨q, hq⟩

theorem without (hd' : (d.without gone).Sound) : (d.without gone).LegibleIn A := by
  refine hd.of_entries hd' (fun q n hq hfree => ?_) fun q t hq => ⟨q, (of_get?_without hq).1⟩
  obtain ⟨e, he⟩ := Option.ne_none_iff_exists'.1 hq
  cases hfree.symm.trans (of_get?_without he).1

theorem move (hq : d.get? q = some e) (hqne : q ≠ []) (hpne : p ≠ []) (hd' : (d.move q p e).Sound)
    (hname : ∀ q n, p = q ++ [n] → d.get? p = none → n.IsText) : (d.move q p e).LegibleIn A := by
  refine hd.of_entries hd' (fun r n hr hfree => ?_) fun r t hr => ?_
  · rw [get?_move hpne hqne] at hr
    split at hr
    · next heq => exact hname r n heq.symm (heq ▸ hfree)
    split at hr
    · exact absurd rfl hr
    · exact absurd hfree hr
  · rw [get?_move hpne hqne] at hr
    split at hr
    · cases hr
      exact ⟨q, hq⟩
    split at hr
    · cases hr
    · exact ⟨r, hr⟩

theorem rename (hr : r.bytes.IsText) (h : d.rename source r = .ok d') : d'.LegibleIn A := by
  have hd' := hd.sound.rename h
  have hne : ∀ {q e}, d.get? q = some e → e ≠ .directory → q ≠ [] := by
    rintro _ e hq he rfl
    rw [get?_nil] at hq
    exact he (Option.some.inj hq).symm
  obtain ⟨q, e, hq, he, ⟨p, e', hp, he', rfl⟩ | ⟨p, hp, rfl⟩⟩ := rename_eq_ok h
  · have hget := hd.sound.get?_of_resolve hq he
    have hget' := hd.sound.get?_of_resolve hp he'
    split
    · exact hd
    · next htwins =>
      rw [if_neg htwins] at hd'
      exact hd.move hget (hne hget he) (hne hget' he') hd' (by simp [hget'])
  · have hget := hd.sound.get?_of_resolve hq he
    exact hd.move hget (hne hget he) (hd.sound.vacant_of_resolve hp).ne_nil hd'
      fun _ _ heq _ => hd.isText_of_vacant hr (heq ▸ hp)

theorem removeFile (h : d.removeFile r = .ok d') : d'.LegibleIn A := by
  have hd' := hd.sound.removeFile h
  obtain ⟨p, e, -, -, rfl⟩ := removeFile_eq_ok h
  exact hd.without hd'

theorem removeTree (h : d.removeTree r = .ok d') : d'.LegibleIn A := by
  have hd' := hd.sound.removeTree h
  obtain ⟨p, -, rfl⟩ | ⟨p, t, -, rfl⟩ := removeTree_eq_ok h
  · exact hd.without hd'
  · exact hd.without hd'

end

end LegibleIn

theorem Legible.tree (hd : d.Legible) (directory : String) : d.LegibleTree directory :=
  fun _ => LegibleIn.tree hd fun _ _ _ _ _ => trivial

def StaysLegible (A : Place → Prop) (d d' : Disk) : Prop :=
  d.LegibleIn A → d'.LegibleIn A

theorem StaysLegible.frame (A : Place → Prop) : Action.Frame (StaysLegible A) :=
  Action.frame_keeps _

/-! ### Checking a disk -/

/-- Whether the names of something are texts, and its target if it is a link. -/
def readable : Place × Entry → Bool
  | (p, .symlink t) => p.all (·.IsText) && t.IsText
  | (p, _) => p.all (·.IsText)

theorem Sound.legible (hd : d.Sound) (h : d.entries.all readable) : d.Legible := by
  have hread : ∀ p e, p ≠ [] → d.get? p = some e → readable (p, e) := fun p e hp he =>
    List.all_eq_true.1 h _ (mem_entries_of_get? hp he)
  refine ⟨hd, fun p n _ hsome => ?_, fun p t ht => ?_⟩
  · obtain ⟨e, he⟩ := Option.ne_none_iff_exists'.1 hsome
    have hall := hread _ e (by simp) he
    cases e <;> simp_all [readable]
  · have hp : p ≠ [] := by
      rintro rfl
      simp at ht
    have hall := hread p _ hp ht
    simp_all [readable]

theorem legible_of_fits (h : (d.places.Nodup ∧ d.entries.all d.fits ∧ d.twins = [] ∧
    d.closed = []) ∧ d.entries.all readable) : d.Legible :=
  (sound_of_fits h.1).legible h.2

end Disk

/-! ### Operations on written paths -/

theorem Disk.TextChange.staysLegible (hf : TextChange f) (d d' : Disk)
    (h : f d = .ok d') : StaysLegible A d d' := by
  intro hd
  cases hf with
  | writeFile path =>
    obtain ⟨p, hp, rfl⟩ := writeFile_eq_ok.1 h
    exact hd.fill_of_writePlace (Route.isText_written path) hp
  | copy _ path =>
    obtain ⟨_, _, p, -, hp, rfl⟩ := copy_eq_ok h
    exact hd.fill_of_writePlace (Route.isText_written path) hp
  | rename _ path => exact hd.rename (Route.isText_written path) h
  | removeFile => exact hd.removeFile h
  | removeTree => exact hd.removeTree h
  | removeAny =>
    simp only at h
    split at h
    · cases h
      exact hd
    · exact hd.removeFile h
  | createDirectory path => exact hd.createDirectory (Route.isText_written path) h

theorem OnDisk.closed_legible : Closed Disk.TextChange (fun _ => True) fun _ x =>
    Action.Moves (Disk.StaysLegible A) x :=
  closed_moves (Disk.StaysLegible.frame A) fun _ hf => hf.staysLegible

theorem World.legible_reporting {w : World} (h : w.disk.LegibleIn A) (e : Event) :
    (w.reporting e).disk.LegibleIn A := by
  refine moves_reporting (Disk.StaysLegible.frame A) w e (fun path _ _ _ hd h => ?_) h
  obtain ⟨p, c, hp, rfl⟩ := Disk.append_eq_ok hd
  exact h.fill_of_writePlace (Route.isText_written path) hp

end AgentChain
