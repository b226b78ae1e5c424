import AgentChain.Proofs.EventLog
import AgentChain.Proofs.Storage

/-!
# Writing files keeps the directories

Where only files are written, moved and added to, directories neither come nor go. A directory that
was there is still there, and where a file could be written one can be written again.
-/

namespace AgentChain

open AgentChain.Action

/-! ### Disks with the same directories -/

namespace Disk

variable {d d' : Disk} {r source : Route} {p : Place} {c : Bytes}

/-- Directories neither come nor go, and those that are closed stay so. -/
structure SameDirectories (d d' : Disk) : Prop where
  sound : d'.Sound
  directory : ∀ q, d'.get? q = some .directory ↔ d.get? q = some .directory
  closed : ∀ q, d.get? q = some .directory → q ∈ d.closed → q ∈ d'.closed

def Steady (d d' : Disk) : Prop :=
  d.Sound → SameDirectories d d'

theorem Steady.frame : Frame Steady where
  refl _ h := ⟨h, fun _ => .rfl, fun _ _ hq => hq⟩
  trans h h' hd :=
    have hd' := h hd
    have hd'' := h' hd'.sound
    ⟨hd''.sound, fun q => (hd''.directory q).trans (hd'.directory q), fun q hq hclosed =>
      hd''.closed q ((hd'.directory q).mpr hq) (hd'.closed q hq hclosed)⟩

theorem steady_fill (h : d.writePlace r = .ok p) : Steady d (d.fill p c) := by
  intro hd
  have hplace := hd.of_writePlace h
  refine ⟨hd.fill hplace, fun q => ⟨fun hq => ?_, (hd.grows_fill hplace).directory q⟩,
    fun q _ hclosed => by rwa [closed_fill]⟩
  rw [get?_fill (ne_nil_of_vacant_or_file hplace)] at hq
  split at hq
  · cases hq
  split at hq
  · obtain ⟨e, -, he⟩ := Option.map_eq_some_iff.mp hq
    cases he
  · exact hq

theorem sameDirectories_move (hmoved : (d.move q p e).Sound)
    (he : e ≠ .directory) (hq : d.get? q = some e) (hp : d.get? p ≠ some .directory) :
    SameDirectories d (d.move q p e) := by
  have hqdir : d.get? q ≠ some .directory := by simpa [hq] using he
  have hne {r : Place} (hr : d.get? r ≠ some .directory) : r ≠ [] := by
    rintro rfl
    exact hr (get?_nil d)
  have hc := changes_move (d := d) (e := e) (hne hp) (hne hqdir)
  refine ⟨hmoved, fun q' => ?_, fun q' hq' hclosed => hc.still_closed q' ?_ hclosed⟩
  · by_cases hat : q' = p ∨ q' = q
    · have hbefore : d.get? q' ≠ some .directory := by rcases hat with rfl | rfl <;> assumption
      refine ⟨fun hafter => ?_, fun hq' => absurd hq' hbefore⟩
      rw [get?_move (hne hp) (hne hqdir)] at hafter
      split at hafter
      · exact absurd (Option.some.inj hafter) he
      split at hafter
      · cases hafter
      · exact hafter
    · rw [hc.entry q' hat]
  · rintro (rfl | rfl)
    · exact hp hq'
    · exact hqdir hq'

theorem steady_rename (h : d.rename source r = .ok d') : Steady d d' := by
  intro hd
  have hmoved := hd.rename h
  obtain ⟨q, e, hsource, he, hcases⟩ := rename_eq_ok h
  have hq := hd.get?_of_resolve hsource he
  obtain ⟨p, e', hres, he', rfl⟩ | ⟨p, hres, rfl⟩ := hcases
  · split at hmoved
    · next htwins => simpa [htwins] using Steady.frame.refl d hd
    · next htwins =>
      rw [if_neg htwins]
      exact sameDirectories_move hmoved he hq (by simpa [hd.get?_of_resolve hres he'] using he')
  · exact sameDirectories_move hmoved he hq (by simp [(hd.vacant_of_resolve hres).free])

/-! ### Places for files -/

theorem Offers.of_alike (h : d.Offers r p) (hd : d.Sound)
    (halike : Alike W d d') : d'.Offers r p := by
  refine h.mono halike.keeps halike.home ?_
  have hplace := h.vacant_or_file hd
  have hne := ne_nil_of_vacant_or_file hplace
  have hentry : d'.get? p = none ∨ ∃ c, d'.get? p = some (.file c) := by
    by_cases hp : W p
    · cases hget : d'.get? p with
      | none => exact .inl rfl
      | some e =>
        obtain ⟨c, rfl⟩ := halike.right.file p e hp hget
        exact .inr ⟨c, rfl⟩
    · rw [halike.entry p hp]
      exact hplace.imp_left (·.free)
  refine hentry.imp_left fun hfree => ⟨hfree, ?_⟩
  obtain ⟨base, name, hbase, hdir, hproper⟩ :=
    hd.exists_base hne (hplace.imp_right fun ⟨c, hfile⟩ => by simp [hfile])
  exact ⟨base, name, hbase, halike.keeps.directory base hdir, hproper⟩

theorem LeadsTo.hasDirectory (hP : d.LeadsTo (Bytes.ofText a) P)
    (hname : Path.isAbsolute name = false)
    (hr : Followable (Path.join a name : Route).bytes) : d.HasDirectory a := by
  by_cases hempty : a = ""
  · exact .inl (by rw [hempty]; decide)
  have hbytes : (Path.join a name : Route).bytes =
      Name.below (Bytes.ofText a) (Bytes.ofText name) := Path.ofText_join hname
  rw [hbytes] at hr
  have hne : (a : Route).bytes ≠ [] := by
    intro hnil
    exact hempty (Bytes.ofText_eq_nil_iff.mp hnil)
  exact .inr (LeadsTo.isDirectory hP hne hr.of_below)

theorem Aims.look?_ne_symlink (h : d.Aims r P n)
    (hlink : ∀ t, d.get? (P ++ [n]) ≠ some (.symlink t)) : d.look? r ≠ some (.symlink target) := by
  intro hlook
  rw [look?] at hlook
  split at hlook
  · next p e hres =>
    cases hlook
    exact hlink target (h.of_present (.inl rfl) hres).2
  · cases hlook

end Disk

open Disk

namespace OnDisk

variable {d d' : Disk} {a : String}

theorem hasDirectory_of_createDirectoriesFor (hd : d.Sound)
    (h : (createDirectoriesFor act a).result d = (.ok (), d')) : d'.HasDirectory a := by
  rw [createDirectoriesFor, result_within_eq_ok, result_makeDirectories] at h
  obtain ⟨hmade, rfl⟩ := Prod.mk.inj h
  exact hd.hasDirectory_of_createDirectories (Prod.ext (mapError_eq_ok.mp hmade) rfl)

theorem result_createDirectoriesFor_of_hasDirectory (h : d.HasDirectory a) :
    (createDirectoriesFor act a).result d = (.ok (), d) := by
  rw [createDirectoriesFor, result_within_eq_ok, result_makeDirectories, h.createDirectories]
  rfl

theorem result_createParent_of_keeps {path : String} (hd : d.Sound)
    (h : (createParent path).result d = (.ok (), d)) (hk : d.Keeps d') (hhome : d'.home = d.home) :
    (createParent path).result d' = (.ok (), d') := by
  rw [createParent] at h ⊢
  cases hparent : Path.parent? path with
  | none =>
    have hroute : (path : Route).parent? = none := by simp [Route.parent?, hparent]
    rw [hroute]
    rfl
  | some a =>
    have hroute : (path : Route).parent? = some { start := a } := by
      simp [Route.parent?, hparent]
    rw [hroute] at h ⊢
    exact result_createDirectoriesFor_of_hasDirectory
      (hk.hasDirectory hhome (hasDirectory_of_createDirectoriesFor hd h))

end OnDisk

theorem OnDisk.steady_writeFile (path : Route) (c : Bytes) : Moves Steady (writeFile path c) := by
  refine Frame.within (moves_change Steady.frame fun d d' h => ?_) _
  obtain ⟨p, hp, rfl⟩ := writeFile_eq_ok.mp h
  exact steady_fill hp

theorem OnDisk.steady_rename (source path : Route) : Moves Steady (change (·.rename source path)) :=
  moves_change Steady.frame fun _ _ h => Disk.steady_rename h

theorem World.steady_reporting (w : World) (e : Event) : Steady w.disk (w.reporting e).disk := by
  refine moves_reporting Steady.frame w e fun _ _ d d' hd => ?_
  obtain ⟨p, c, hp, rfl⟩ := append_eq_ok hd
  exact steady_fill hp

end AgentChain
