import AgentChain.Proofs.FileTree.Collection
import AgentChain.Proofs.FileTree.Enclosure

/-!
# Trees that stay as they were

A tree is looked at, and its files are opened later through paths. A path of plain names in a tree
without links leads to the file of these names, as long as the tree is as it was. In between, events
are written to logs and a sandbox is worked in: a log that leads to a file outside of the tree that
stands nowhere else does not change the tree, and neither does what is done in the directory of the
sandbox.
-/

namespace AgentChain

open Bytes (ofText)

/-! ### Plain paths -/

namespace Path

variable {base path : String}

/-- A relative path of names, none of which leads up or stands for the directory itself. -/
def IsPlain (path : String) : Prop :=
  ∀ s ∈ segments path, IsName s

instance (path : String) : Decidable (IsPlain path) :=
  inferInstanceAs (Decidable (∀ s ∈ segments path, IsName s))

theorem IsPlain.isAbsolute_eq (h : IsPlain path) : isAbsolute path = false := by
  by_contra habs
  obtain ⟨cs, hcs⟩ : ∃ cs, path.toList = '/' :: cs := by
    cases hlist : path.toList with
    | nil => simp [isAbsolute, hlist] at habs
    | cons c cs => exact ⟨cs, by simpa [isAbsolute, hlist] using habs⟩
  have hpath : path = "" ++ "/" ++ String.ofList cs := String.toList_injective (by simp [hcs])
  have hempty : "" ∈ segments path := by
    rw [hpath, segments, Text.split_append_slash]
    exact List.mem_append_left _ (by decide)
  exact (h "" hempty).ne_empty rfl

theorem IsPlain.join_eq (h : IsPlain path) : join base path = under base (segments path) := by
  have hjoin := join_join_names (a := base) (Text.split_ne_nil path) h
  rwa [Text.join_split] at hjoin

theorem IsPlain.of_append (h : IsPlain (directory ++ "/" ++ path)) : IsPlain path := by
  intro s hs
  refine h s ?_
  rw [segments, Text.split_append_slash]
  exact List.mem_append_right _ hs

end Path

/-! ### Trees that are as they were -/

namespace Disk

variable {d d' : Disk} {directory : String} {D : Place}

/-- A path leads to a tree without links, in which no two files are shown alike. -/
structure Settled (d : Disk) (directory : String) (D : Place) : Prop where
  leads : d.LeadsTo (ofText directory) D
  linkless : Linkless D d
  shown : ∀ found, d.treeFiles directory = .ok found → (found.map fun file => shown file.1).Nodup

/-- A path still leads to a tree, and the tree is as it was. -/
structure Intact (directory : String) (D : Place) (d d' : Disk) : Prop where
  leads : d'.LeadsTo (ofText directory) D
  entry : ∀ q, inside D q = true → d'.get? q = d.get? q

theorem shown_ofText (names : List String) :
    Disk.shown (names.map ofText) = Text.join "/" names := by
  rw [Disk.shown, List.map_map]
  congr 1
  exact (List.map_congr_left fun s _ => Bytes.lossyText_ofText s).trans (List.map_id names)

theorem Settled.mem_treeFiles
    (h : d.Settled directory D) (hd : d.Sound) (hintact : Intact directory D d d')
    (hfound : d.treeFiles directory = .ok found) (hname : Path.IsPlain name)
    (hread : d'.readBytes (Path.join directory name) = .ok c) :
    ((Path.segments name).map ofText, c) ∈ found := by
  have hlinkless : Linkless D d' := fun q t hq => by
    rw [hintact.entry q hq]
    exact h.linkless q t hq
  have hne : Path.segments name ≠ [] := Text.split_ne_nil name
  obtain ⟨p, hp⟩ := readBytes_eq_ok.1 hread
  rw [hname.join_eq] at hp
  have hfile : d.get? (D ++ (Path.segments name).map ofText) = some (.file c) := by
    rcases hlinkless.of_resolve hintact.leads hname hne hp with ⟨e, hget, ht⟩ | ⟨-, ht⟩
    · cases ht
      rwa [hintact.entry _ (inside_append (by simpa using hne))] at hget
    · cases ht
  have hresolve : d.resolve true directory = .ok (.present D .directory) := by
    rcases hres : d.resolve true directory with f | ⟨P, e⟩ | ⟨P, b⟩
    · simp [treeFiles, hres] at hfound
    · exact hres ▸ LeadsTo.resolve_eq (r := directory) h.leads (ne_nil_of_resolve hres)
        (followable_of_resolve hres)
    · simp [treeFiles, hres] at hfound
  exact (hd.mem_treeFiles_iff hresolve hfound).2 ⟨by simpa using hne, hfile⟩

end Disk

/-! ### Changes that do not reach a tree -/

namespace Disk

variable {d d' d₀ : Disk} {D S p q : Place} {gone : Place → Bool} {directory path : String}
  {logs : List String} {c c' : Bytes} {e : Entry}

theorem alone_without_iff (hp : gone p = false) : (d.without gone).Alone p ↔ d.Alone p := by
  simp [Alone, without, hp]

/-- Directories, links and files stay what they are, and a file that stood nowhere else still does. -/
structure Retains (d d' : Disk) : Prop where
  keeps : d.Keeps d'
  home : d'.home = d.home
  file : ∀ p c, d.get? p = some (.file c) → ∃ c', d'.get? p = some (.file c')
  alone : ∀ p c, d.get? p = some (.file c) → d.Alone p → d'.Alone p

theorem retains_without (hentry : ∀ q, inside S q = false → d'.get? q = d.get? q ∨
      ∃ c c', d.get? q = some (.file c) ∧ d'.get? q = some (.file c'))
    (hclosed : ∀ q, inside S q = false → q ∈ d'.closed → q ∈ d.closed)
    (halone : ∀ q c, inside S q = false → d.get? q = some (.file c) → d.Alone q → d'.Alone q)
    (hhome : d'.home = d.home) :
    Retains (d.without (inside S)) (d'.without (inside S)) := by
  have hsplit : ∀ q e, (d.without (inside S)).get? q = some e → inside S q = false ∧
      d.get? q = some e := by
    intro q e he
    obtain ⟨hget, hout⟩ := of_get?_without he
    refine ⟨?_, hget⟩
    rcases eq_or_ne q [] with rfl | hq
    · simp [inside]
    · exact hout hq
  have hkept : ∀ q e, (∀ c, e ≠ .file c) → (d.without (inside S)).get? q = some e →
      (d'.without (inside S)).get? q = some e := by
    intro q e hfile he
    obtain ⟨hout, hget⟩ := hsplit q e he
    rw [get?_without, if_neg (by simp [hout])]
    rcases hentry q hout with hsame | ⟨c, c', hc, -⟩
    · rw [hsame, hget]
    · exact absurd (Option.some.inj (hget.symm.trans hc)) (hfile c)
  refine ⟨⟨fun q => hkept q _ (by simp), fun q t => hkept q _ (by simp), fun q hq => ?_⟩, hhome,
    fun q c hc => ?_, fun q c hc ha => ?_⟩
  · obtain ⟨hclosed', hout⟩ := List.mem_filter.1 hq
    have hout : inside S q = false := by simpa using hout
    exact List.mem_filter.2 ⟨hclosed q hout hclosed', by simp [hout]⟩
  · obtain ⟨hout, hget⟩ := hsplit q _ hc
    rw [get?_without, if_neg (by simp [hout])]
    rcases hentry q hout with hsame | ⟨-, c', -, hc'⟩
    · exact ⟨c, hsame.trans hget⟩
    · exact ⟨c', hc'⟩
  · obtain ⟨hout, hget⟩ := hsplit q _ hc
    rw [alone_without_iff hout] at ha ⊢
    exact halone q c hout hget ha

theorem Spares.retains (h : Spares (inside S ·) d d') :
    Retains (d.without (inside S)) (d'.without (inside S)) := by
  have hnot : ∀ {q}, inside S q = false → ¬ inside S q := fun hq => by simp [hq]
  exact retains_without (fun q hq => .inl (h.entry q (hnot hq)))
    (fun q hq => (h.closed q (hnot hq)).1) (fun q c hq => h.alone q c (hnot hq)) h.home

theorem retains_fill (hp : d.get? p = some (.file c')) (halone : d.Alone p) :
    Retains (d.without (inside S)) ((d.fill p c).without (inside S)) := by
  have hne : p ≠ [] := by
    rintro rfl
    simp at hp
  refine retains_without (fun q _ => ?_) (fun q _ => by simp) (fun q _ _ _ ha => by rwa [Alone, twins_fill])
    home_fill
  rw [get?_fill_of_alone hne halone]
  split
  · next hq => exact .inr ⟨c', c, hq ▸ hp, rfl⟩
  · exact .inl rfl

theorem Bare.retains (h : Bare S d) : Retains d (d.without (inside S)) := by
  refine ⟨⟨fun _ => h.get?_without, fun _ _ => h.get?_without, fun q hq => (List.mem_filter.1 hq).1⟩,
    rfl, fun q c hc => ⟨c, h.get?_without hc⟩, fun q c hc ha => ?_⟩
  refine (alone_without_iff ?_).2 ha
  rw [← Bool.not_eq_true]
  intro hq
  rw [h q hq] at hc
  cases hc

theorem Sound.exists_bare (hd : d.Sound) : ∃ S, Bare S d ∧ inside S d.home = false := by
  refine ⟨List.replicate (d.home.length + 1) [], fun q hq => ?_, ?_⟩
  · -- no name is empty
    obtain ⟨names, -, rfl⟩ := inside_iff.1 hq
    by_contra hne
    exact (hd.proper _ hne [] (List.mem_append_left _ (by simp))).ne_nil rfl
  · rw [← Bool.not_eq_true, inside_iff]
    rintro ⟨names, -, hhome⟩
    have hlength := congrArg List.length hhome
    simp at hlength
    omega

/-- A path leads to a directory, or to a file that is not below a given place and that stands nowhere
else. -/
inductive Elsewhere (D : Place) (d : Disk) (path : String) : Prop
  | directory {p : Place} (leads : d.resolve true path = .ok (.present p .directory))
  | file {p : Place} {c : Bytes} (leads : d.resolve true path = .ok (.present p (.file c)))
    (entry : d.get? p = some (.file c)) (outside : inside D p = false) (alone : d.Alone p)

theorem Elsewhere.retains (h : Elsewhere D d path) (hr : Retains d d') : Elsewhere D d' path := by
  cases h with
  | directory leads =>
    exact .directory (((leadsTo_of_resolve leads).mono hr.keeps hr.home).resolve_eq
      (ne_nil_of_resolve leads) (followable_of_resolve leads))
  | file leads entry outside alone =>
    obtain ⟨c', hc'⟩ := hr.file _ _ entry
    exact .file (hr.keeps.resolve_of_file hr.home hc' leads (.inr ⟨_, rfl⟩)) hc' outside
      (hr.alone _ _ entry alone)

/-- A path leads to a tree that is as it was. Neither the path nor the logs are led through anything
below the directory `S` of a sandbox, and the logs are elsewhere. -/
structure Custody (directory : String) (D S : Place) (d₀ : Disk) (logs : List String) (d : Disk) :
    Prop where
  sound : d.Sound
  home : inside S d.home = false
  leads : (d.without (inside S)).LeadsTo (ofText directory) D
  entry : ∀ q, inside D q = true → d.get? q = d₀.get? q
  logs : ∀ path ∈ logs, Elsewhere D (d.without (inside S)) path

theorem custody_of_bare (hd : d.Sound) (hhome : inside S d.home = false) (hbare : Bare S d)
    (hleads : d.LeadsTo (ofText directory) D) (hlogs : ∀ path ∈ logs, Elsewhere D d path) :
    Custody directory D S d logs d where
  sound := hd
  home := hhome
  leads := hleads.mono hbare.retains.keeps rfl
  entry _ _ := rfl
  logs path hpath := (hlogs path hpath).retains hbare.retains

namespace Custody

variable (h : Custody directory D S d₀ logs d)
include h

theorem intact : Intact directory D d₀ d :=
  ⟨(Spares.refl _ d).leadsTo h.leads h.home, h.entry⟩

theorem of_spares (hd' : d'.Sound) (hs : Spares (inside S ·) d d')
    (hapart : ∀ q, inside D q → inside S q = false) :
    Custody directory D S d₀ logs d' where
  sound := hd'
  home := by rw [hs.home, h.home]
  leads := h.leads.mono hs.retains.keeps hs.home
  entry q hq := (hs.entry q (by simp [hapart q hq])).trans (h.entry q hq)
  logs path hpath := (h.logs path hpath).retains hs.retains

theorem fill (hp : d.get? p = some (.file c')) (halone : d.Alone p) (hout : inside D p = false) :
    Custody directory D S d₀ logs (d.fill p c) where
  sound := h.sound.fill (.inr ⟨c', hp⟩)
  home := by rw [home_fill, h.home]
  leads := h.leads.mono (retains_fill hp halone).keeps home_fill
  entry q hq := by
    have hne : p ≠ [] := by
      rintro rfl
      simp at hp
    rw [get?_fill_of_alone hne halone, if_neg, h.entry q hq]
    rintro rfl
    simp [hout] at hq
  logs path hpath := (h.logs path hpath).retains (retains_fill hp halone)

theorem exists_of_append (hpath : path ∈ logs) (happend : d.append path line = .ok d') :
    ∃ p c c', d.get? p = some (.file c') ∧ d.Alone p ∧ inside D p = false ∧ inside S p = false ∧
      d' = d.fill p c := by
  obtain ⟨p, c, hp, rfl⟩ := append_eq_ok happend
  cases h.logs path hpath with
  | directory leads =>
    rw [writePlace, (Spares.refl _ d).resolve_eq leads h.home] at hp
    cases hp
  | file leads entry outside alone =>
    rw [writePlace, (Spares.refl _ d).resolve_eq leads h.home] at hp
    cases hp
    obtain ⟨hget, hsandbox⟩ := of_get?_without entry
    have hne : p ≠ [] := by
      rintro rfl
      simp at hget
    exact ⟨p, c, _, hget, (alone_without_iff (hsandbox hne)).1 alone, outside, hsandbox hne, rfl⟩

end Custody

/-- A property of disks that the lines of logs outside of a directory leave alone. -/
def Unlogged (S : Place) (P : Disk → Prop) : Prop :=
  ∀ d p c c', P d → d.get? p = some (.file c') → d.Alone p → inside S p = false → P (d.fill p c)

theorem Custody.reporting {P : Disk → Prop} {w : World} (hP : Unlogged S P) (e : Event)
    (h : Custody directory D S d₀ w.logs w.disk) (hd : P w.disk) :
    Custody directory D S d₀ w.logs (w.reporting e).disk ∧ P (w.reporting e).disk := by
  refine World.moves_reporting (Action.frame_keeps fun d =>
    Custody directory D S d₀ w.logs d ∧ P d) w e (fun path hpath d d' happend ⟨h, hd⟩ => ?_) ⟨h, hd⟩
  obtain ⟨p, c, c', hp, halone, htree, hout, rfl⟩ := h.exists_of_append hpath happend
  exact ⟨h.fill hp halone htree, hP d p c c' hd hp halone hout⟩

end Disk

end AgentChain
