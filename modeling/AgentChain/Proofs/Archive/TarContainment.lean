import AgentChain.Proofs.Archive.Extract
import AgentChain.Proofs.FileTree.Enclosure

/-!
# Unpacking a tar archive stays below its destination

A tar archive may hold anything, links that lead elsewhere too. Before each member is unpacked, its
directory is looked at through all links and must lie below the destination, and a link at its name
is replaced and not followed. So nothing changes but what is below the destination.
-/

namespace AgentChain

open AgentChain.Action

/-- A segment that leads down, unless it is too long. -/
structure Name.LeadsDown (n : Name) : Prop where
  ne_nil : n ≠ []
  ne_here : n ≠ Name.here
  ne_up : n ≠ Name.up
  no_slash : Name.slash ∉ n

theorem Tar.Member.leadsDown_of_names? {m : Tar.Member}
    (h : m.names? = some names) : ∀ n ∈ names, n.LeadsDown := by
  rw [names?] at h
  split at h
  · cases h
  next hup =>
  cases h
  intro n hn
  obtain ⟨hmem, hidle⟩ := List.mem_filter.1 hn
  simp only [Name.isIdle, Bool.not_eq_true', Bool.or_eq_false_iff, decide_eq_false_iff_not,
    List.isEmpty_eq_false_iff] at hidle
  refine ⟨hidle.1, hidle.2, ?_, (Bytes.of_mem_split hmem).1⟩
  rintro rfl
  exact hup (by simpa using hmem)

namespace Disk

variable {d d₀ d' : Disk} {f : Bool} {r : Route} {dest : String} {D p P : Place} {e : Entry}
  {k : List Name} {n : Name} {b c : Bytes}

/-- A destination is as it should be, and nothing but what is below it has changed. -/
structure Kept (dest : String) (D : Place) (d₀ d : Disk) : Prop where
  enclosure : Enclosure dest D d
  spares : Spares (inside D · = true) d₀ d

theorem Kept.of_step (h : Kept dest D d₀ d)
    (hstep : Enclosure dest D d' ∧ Spares (inside D ·) d d') : Kept dest D d₀ d' :=
  ⟨hstep.1, h.spares.trans hstep.2⟩

/-! ### Names in a directory below the destination -/

/-- A path leads nowhere but to a directory or below it. -/
def LeadsWithin (d : Disk) (b : Bytes) (D : Place) : Prop :=
  ∀ P, d.LeadsTo b P → D <+: P

theorem leadsWithin_of_resolve (h : d.resolve true r = .ok (.present p e)) (hp : D <+: p) :
    d.LeadsWithin r.bytes D := by
  intro P hP
  have hres := hP.resolve_eq (ne_nil_of_resolve h) (followable_of_resolve h)
  cases h.symm.trans hres
  exact hp

section

variable (h : d.LeadsWithin b D) (hr : r.bytes = Name.below b n) (hn : n.LeadsDown)
include h hr hn

theorem LeadsWithin.exists_aims (ht : d.resolve f r = .ok t) : ∃ P, d.Aims r P n ∧ D <+: P := by
  obtain ⟨left, P, hP, hlast⟩ := exists_leadsTo hr hn.ne_nil hn.no_slash ht
  have hzero : 0 ∉ n := fun hzero => (followable_of_resolve ht).no_zero
    (hr ▸ Name.mem_below (.inr hzero))
  have hproper : n.Proper :=
    ⟨hn.ne_nil, hn.ne_here, hn.ne_up, hn.no_slash, hzero, length_le_of_walkLinks hn.ne_nil hlast⟩
  exact ⟨P, ⟨hproper, b, hr, hP⟩, h P hP⟩

theorem LeadsWithin.inside_of_vacant (ht : d.resolve false r = .ok (.vacant p s)) : inside D p := by
  obtain ⟨P, haims, hP⟩ := h.exists_aims hr hn ht
  rcases lookup_eq_ok (haims.lookup_of_resolve (.inl rfl) ht) with ⟨e, -, heq⟩ | ⟨-, -, heq⟩
  · cases heq
  · cases heq
    exact inside_concat hP

theorem LeadsWithin.inside_of_present
    (ht : d.resolve false r = .ok (.present p e)) : inside D p ∧ d.get? p = some e := by
  obtain ⟨P, haims, hP⟩ := h.exists_aims hr hn ht
  rcases lookup_eq_ok (haims.lookup_of_resolve (.inl rfl) ht) with ⟨e', hget, heq⟩ | ⟨-, -, heq⟩
  · cases heq
    exact ⟨inside_concat hP, hget⟩
  · cases heq

end

section Names

variable (h : Kept dest D d₀ d) (hwithin : d.LeadsWithin b D) (hr : r.bytes = Name.below b n)
  (hn : n.LeadsDown)
include h hwithin hr hn

theorem Kept.createDirectory (hd' : d.createDirectory r = .ok d') : Kept dest D d₀ d' := by
  obtain ⟨p, s, hres, rfl⟩ := createDirectory_eq_ok hd'
  exact h.of_step (h.enclosure.put (hwithin.inside_of_vacant hr hn hres)
    (h.enclosure.sound.vacant_of_resolve hres) (by simp))

theorem Kept.createNew (hd' : d.createNew r c = .ok d') : Kept dest D d₀ d' := by
  obtain ⟨p, hp, rfl⟩ := createNew_eq_ok.1 hd'
  exact h.of_step (h.enclosure.put (hwithin.inside_of_vacant hr hn (newPlace_eq_ok hp))
    (h.enclosure.sound.of_newPlace hp) (by simp))

theorem Kept.symlink (hd' : d.symlink target r = .ok d') : Kept dest D d₀ d' := by
  obtain ⟨hzero, p, hp, rfl⟩ := symlink_eq_ok hd'
  refine h.of_step (h.enclosure.put (hwithin.inside_of_vacant hr hn (newPlace_eq_ok hp))
    (h.enclosure.sound.of_newPlace hp) fun t ht => ?_)
  cases ht
  exact hzero

theorem Kept.removeFile (hd' : d.removeFile r = .ok d') :
    Kept dest D d₀ d' ∧ d'.LeadsWithin b D := by
  obtain ⟨p, e, hres, he, rfl⟩ := removeFile_eq_ok hd'
  obtain ⟨hp, hget⟩ := hwithin.inside_of_present hr hn hres
  refine ⟨h.of_step (h.enclosure.erase hp hget he), fun P hP => hwithin P (hP.mono ?_ rfl)⟩
  refine ⟨fun q hq => (of_get?_without hq).1, fun q t hq => (of_get?_without hq).1,
    fun q hq => List.mem_filter.2 ⟨hq, ?_⟩⟩
  have hqp : q ≠ p := by
    rintro rfl
    rw [h.enclosure.closed q hq hp] at hget
    exact he (Option.some.inj hget).symm
  simpa using hqp

theorem Kept.hardLink (hsource : d.resolve true source = .ok (.present q e)) (hq : D <+: q)
    (hd' : d.hardLink source r = .ok d') : Kept dest D d₀ d' := by
  obtain ⟨origin, e', p, hres, he', hp, rfl⟩ := hardLink_eq_ok hd'
  have hsound := h.enclosure.sound
  have hget := hsound.get?_of_resolve hres he'
  refine h.of_step (h.enclosure.share (hwithin.inside_of_vacant hr hn (newPlace_eq_ok hp))
    (hsound.of_newPlace hp) hget he' fun c hc => ?_)
  subst hc
  -- a file is found at the same place through all links
  have hthrough : d.resolve true source = .ok (.present origin (.file c)) :=
    Keeps.resolve_of_spot (d := d) (f := false) (t := .present origin (.file c)) (p := origin)
      ⟨fun _ hq => hq, fun _ _ hq => hq, fun _ hq => hq⟩ rfl (by simp) hres ⟨rfl, by simp⟩
      ⟨rfl, hget, by simp, by simp⟩
  cases hsource.symm.trans hthrough
  obtain ⟨names, rfl⟩ := hq
  refine inside_append ?_
  rintro rfl
  rw [List.append_nil, h.enclosure.directory] at hget
  cases hget

omit hwithin hr hn in
theorem Kept.setClosed {closed} (haims : d.Aims r P n) (hP : D <+: P)
    (hdir : d.get? (P ++ [n]) = some .directory) (hd' : d.setClosed r closed = .ok d') :
    Kept dest D d₀ d' := by
  obtain ⟨place, hplace, -⟩ := map_eq_ok.1 hd'
  obtain ⟨e, hres⟩ := (canonical?_eq_ok hplace).1
  rcases lookup_eq_ok (haims.lookup_of_resolve (.inr (by simp [hdir])) hres) with
    ⟨e', he', heq⟩ | ⟨-, -, heq⟩
  · cases heq
    cases hdir.symm.trans he'
    exact h.of_step (h.enclosure.setClosed (inside_concat hP) hdir hres hd')
  · cases heq

end Names

def Lands (d : Disk) (r : Route) (D : Place) : Prop :=
  ∃ p e, d.resolve true r = .ok (.present p e) ∧ D <+: p

theorem Enclosure.of_mem_missing (h : Enclosure dest D d) (hk : ∀ n ∈ k, n.LeadsDown)
    (hr : r ∈ (⟨dest, k⟩ : Route).ancestors.takeWhile fun r => (d.look? r).isNone) :
    ∃ k n, r = ⟨dest, k ++ [n]⟩ ∧ n.LeadsDown := by
  induction k using List.reverseRecOn with
  | nil =>
    obtain ⟨rest, hrest⟩ := (dest : Route).exists_ancestors_eq_cons
    have hlook := look?_ne_none_of_resolve h.resolve_eq
    rw [hrest] at hr
    simp [Option.isNone_iff_eq_none, hlook] at hr
  | append_singleton k n ih =>
    rw [Route.ancestors_concat, List.takeWhile_cons] at hr
    split at hr
    · rcases List.mem_cons.1 hr with rfl | hr
      · exact ⟨k, n, rfl, hk n (by simp)⟩
      · exact ih (fun n hn => hk n (by simp [hn])) hr
    · cases hr

end Disk

namespace Archive

open Disk

variable {d₀ : Disk} {dest : String} {D : Place} {r : Route} {k : List Name} {n : Name} {b : Bytes}

/-! ### Members of tar archives -/

theorem ensures_ensureInside (hpre : ∀ d, pre d → Enclosure dest D d) (path : Route) :
    Ensures pre (ensureInside dest path) (fun _ d => pre d ∧ d.Lands path D) pre := by
  refine OnDisk.ensures_read.bind fun place => ?_
  refine (OnDisk.ensures_read.failing fun _ h => h.1).bind fun top => ?_
  split
  · next hprefix =>
    refine .pure ?_
    rintro d ⟨⟨hd, hplace⟩, htop⟩
    obtain ⟨⟨e, hres⟩, -⟩ := canonical?_eq_ok hplace
    obtain ⟨⟨e', htop⟩, -⟩ := canonical?_eq_ok htop
    cases htop.symm.trans (hpre d hd).resolve_eq
    exact ⟨hd, place, e, hres, List.isPrefixOf_iff_prefix.1 hprefix⟩
  · exact .fail fun d hd => hd.1.1

theorem ensures_makeDirectories (hn : n.LeadsDown) :
    Ensures (fun d => Kept dest D d₀ d ∧ d.Lands ⟨dest, k⟩ D)
      (OnDisk.makeDirectories ⟨dest, k ++ [n]⟩) (fun _ => Kept dest D d₀) (Kept dest D d₀) := by
  refine .of_moves (R := fun d d' => Kept dest D d₀ d ∧ d.Lands ⟨dest, k⟩ D →
    Kept dest D d₀ d') ?_ (fun _ _ hd h => h hd) fun _ h => h
  rintro d ⟨hd, p, e, hres, hp⟩
  obtain ⟨q, e', hpresent⟩ := exists_present_of_resolve hres
  obtain ⟨rest, hrest⟩ := Route.exists_ancestors_eq_cons ⟨dest, k⟩
  have habove : (createChain (⟨dest, k⟩ :: rest) d).2 = d := createChain_of_present hpresent
  have hchain := createChain_cons_cases (r := ⟨dest, k ++ [n]⟩) habove
  rw [OnDisk.makeDirectories, result_ofResult, createDirectories, Route.ancestors_concat, hrest]
  rcases hchain with hsame | hmake
  · exact hsame.symm ▸ hd
  · exact hd.createDirectory (leadsWithin_of_resolve hres hp) (Route.bytes_names_concat dest k n) hn
      hmake

theorem ensures_createInside (h : ∀ r ∈ directories, ∃ k n, r = ⟨dest, k ++ [n]⟩ ∧ n.LeadsDown) :
    Ensures (Kept dest D d₀) (createInside dest directories) (fun _ => Kept dest D d₀)
      (Kept dest D d₀) := by
  induction directories with
  | nil => exact .pure fun _ h => h
  | cons directory rest ih =>
    obtain ⟨k, n, rfl, hn⟩ := h directory List.mem_cons_self
    have hparent : (⟨dest, k ++ [n]⟩ : Route).parent? = some ⟨dest, k⟩ := by simp [Route.parent?]
    rw [createInside, hparent]
    refine (ensures_ensureInside (fun d hd => hd.enclosure) _).bind fun _ => ?_
    exact (ensures_makeDirectories hn).bind fun _ => ih fun r hr => h r (List.mem_cons_of_mem _ hr)

theorem ensures_ensureDirectory (hk : ∀ n ∈ k, n.LeadsDown) :
    Ensures (Kept dest D d₀) (ensureDirectory dest ⟨dest, k⟩)
      (fun _ => Kept dest D d₀) (Kept dest D d₀) := by
  refine OnDisk.ensures_look.bind fun missing d hd => ?_
  obtain ⟨hd, rfl⟩ := hd
  exact ensures_createInside (fun r hr => hd.enclosure.of_mem_missing hk (List.mem_reverse.1 hr)) d hd

section Members

variable (hr : r.bytes = Name.below b n) (hn : n.LeadsDown)
include hr hn

theorem ensures_unpackDirectory (mayEnter? : Option Bool) :
    Ensures (fun d => Kept dest D d₀ d ∧ d.LeadsWithin b D) (unpackDirectory mayEnter? r)
      (fun _ => Kept dest D d₀) (Kept dest D d₀) := by
  -- the directory is there now, in one that lies below the destination
  have hmade : Ensures (fun d => Kept dest D d₀ d ∧ d.LeadsWithin b D)
      (OnDisk.changeOr (·.createDirectory r) do
        if (← OnDisk.look (·.look? r)) = some .directory then return ()
        else .fail (.fault .alreadyExists))
      (fun _ d => Kept dest D d₀ d ∧ ∃ P, d.Aims r P n ∧ D <+: P ∧
        d.get? (P ++ [n]) = some .directory) (Kept dest D d₀) := by
    refine OnDisk.ensures_changeOr ?_ (OnDisk.ensures_look.bind fun entry => ?_) fun d hd => hd.1
    · rintro d d' ⟨hd, hwithin⟩ hmake
      refine ⟨hd.createDirectory hwithin hr hn hmake, ?_⟩
      obtain ⟨p, s, hres, -⟩ := createDirectory_eq_ok hmake
      obtain ⟨P, haims, hP⟩ := hwithin.exists_aims hr hn hres
      obtain ⟨hfree, rfl⟩ := haims.createDirectory_eq_ok hmake
      have hne : P ++ [n] ≠ [] := by simp
      obtain ⟨b', hr', hleads⟩ := haims.leads
      exact ⟨P, ⟨haims.proper, b', hr', hleads.mono (keeps_put hne hfree) rfl⟩, hP,
        by rw [get?_put hne, if_pos rfl]⟩
    · split
      · next hdir =>
        refine .pure ?_
        rintro d ⟨⟨hd, hwithin⟩, rfl⟩
        refine ⟨hd, ?_⟩
        rw [look?] at hdir
        split at hdir
        · next p e hres =>
          cases hdir
          obtain ⟨P, haims, hP⟩ := hwithin.exists_aims hr hn hres
          rcases lookup_eq_ok (haims.lookup_of_resolve (.inl rfl) hres) with
            ⟨e, he, heq⟩ | ⟨-, -, heq⟩
          · cases heq
            exact ⟨P, haims, hP, he⟩
          · cases heq
        · cases hdir
      · exact .fail fun d hd => hd.1.1
  refine hmade.bind fun _ => ?_
  split
  · refine (OnDisk.ensures_change ?_).failing fun _ h => h.1
    rintro d d' ⟨hd, P, haims, hP, hdir⟩ hclose
    exact hd.setClosed haims hP hdir hclose
  · exact .pure fun d hd => hd.1

theorem ensures_replace
    (hf : ∀ d d', Kept dest D d₀ d → d.LeadsWithin b D → f d = .ok d' → Kept dest D d₀ d') :
    Ensures (fun d => Kept dest D d₀ d ∧ d.LeadsWithin b D)
      (OnDisk.changeOr f do
        OnDisk.change (·.removeFile r)
        OnDisk.change f)
      (fun _ => Kept dest D d₀) (Kept dest D d₀) := by
  have hmake : ∀ d d', Kept dest D d₀ d ∧ d.LeadsWithin b D → f d = .ok d' → Kept dest D d₀ d' :=
    fun d d' hd => hf d d' hd.1 hd.2
  have hremove : ∀ d d', Kept dest D d₀ d ∧ d.LeadsWithin b D → d.removeFile r = .ok d' →
      Kept dest D d₀ d' ∧ d'.LeadsWithin b D :=
    fun d d' hd => hd.1.removeFile hd.2 hr hn
  have hagain : Ensures (fun d => Kept dest D d₀ d ∧ d.LeadsWithin b D)
      (do OnDisk.change (·.removeFile r); OnDisk.change f) (fun _ => Kept dest D d₀)
      (fun d => Kept dest D d₀ d ∧ d.LeadsWithin b D) :=
    (OnDisk.ensures_change hremove).bind fun _ => OnDisk.ensures_change hmake
  exact OnDisk.ensures_changeOr hmake (hagain.failing fun _ h => h.1) fun d hd => hd.1

theorem ensures_unpackHardLink (target : Bytes) :
    Ensures (fun d => Kept dest D d₀ d ∧ d.LeadsWithin b D) (unpackHardLink dest target r)
      (fun _ => Kept dest D d₀) (Kept dest D d₀) := by
  refine (OnDisk.ensures_read.imp (fun _ h => h) (fun _ _ h => h.1) fun _ h => h.1).bind fun top => ?_
  refine ((ensures_ensureInside (fun d hd => hd.1.enclosure) _).failing
    fun _ h => h.1).bind fun _ => ?_
  refine (OnDisk.ensures_change ?_).failing fun _ h => h.1.1
  rintro d d' ⟨⟨hd, hwithin⟩, q, e, hsource, hq⟩ hlink
  exact hd.hardLink hwithin hr hn hsource hq hlink

theorem ensures_unpackTo (m : Tar.Member) :
    Ensures (fun d => Kept dest D d₀ d ∧ d.LeadsWithin b D) (unpackTo dest m r)
      (fun _ => Kept dest D d₀) (Kept dest D d₀) := by
  have hfail : ∀ f : Failure, Ensures (fun d => Kept dest D d₀ d ∧ d.LeadsWithin b D)
      (.fail f : Action Disk Unit) (fun _ => Kept dest D d₀) (Kept dest D d₀) :=
    fun f => .fail fun _ hd => hd.1
  rw [unpackTo]
  split
  · split
    · split
      · exact hfail _
      · exact ensures_replace hr hn fun d d' hd hwithin => hd.symlink hwithin hr hn
    · exact hfail _
  · split
    · split
      · exact hfail _
      · exact ensures_unpackHardLink hr hn _
    · exact hfail _
  · split
    · exact .pure fun _ hd => hd.1
    split
    · exact ensures_unpackDirectory hr hn _
    · refine (ensures_replace hr hn fun d d' hd hwithin => hd.createNew hwithin hr hn).bind
        fun _ => ?_
      split
      · exact .fail fun _ hd => hd
      · exact .pure fun _ hd => hd

end Members

theorem ensures_unpackMember (archive : String) (m : Tar.Member) :
    Ensures (Kept dest D d₀) (unpackMember archive dest m) (fun _ => Kept dest D d₀)
      (Kept dest D d₀) := by
  rw [unpackMember]
  split
  · exact .fail fun _ hd => hd
  next names hnames =>
  have hdown := m.leadsDown_of_names? hnames
  split
  · exact .pure fun _ hd => hd
  next hne =>
  obtain ⟨k, n, rfl⟩ := List.eq_nil_or_concat' names |>.resolve_left (by simpa using hne)
  rw [List.dropLast_concat]
  refine Ensures.within ?_ _
  refine (ensures_ensureDirectory fun n hn => hdown n (by simp [hn])).bind fun _ => ?_
  refine (ensures_ensureInside (fun d hd => hd.enclosure) _).bind fun _ => ?_
  refine (ensures_unpackTo (Route.bytes_names_concat dest k n) (hdown n (by simp)) m).imp
    (fun d hd => ?_) (fun _ _ h => h) fun _ h => h
  obtain ⟨hd, p, e, hres, hp⟩ := hd
  exact ⟨hd, leadsWithin_of_resolve hres hp⟩

/-- Whatever a tar archive holds, unpacking it changes nothing but what is below its destination. -/
theorem ensures_unpackMembers (archive : String) (members : List Tar.Member) :
    Ensures (Kept dest D d₀) (unpackMembers archive dest members) (fun _ => Kept dest D d₀)
      (Kept dest D d₀) := by
  induction members with
  | nil => exact .pure fun _ hd => hd
  | cons m rest ih => exact (ensures_unpackMember archive m).bind fun _ => ih

end Archive

end AgentChain
