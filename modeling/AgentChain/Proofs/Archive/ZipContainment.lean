import AgentChain.Proofs.Archive.Unpack
import AgentChain.Proofs.FileTree.Enclosure

/-!
# Unpacking a zip archive stays below its destination

Of an entry of a zip archive only the name is looked at: it must never lead above where it starts.
That is enough as long as no link stands below the destination, since the name then leads where it
says. Unpacking such an archive brings no links.
-/

namespace AgentChain

open AgentChain.Action
open Bytes (ofText)

/-! ### Names that stay below where they start -/

/-- Segments that never lead above where they start, once they have led down so many levels. -/
inductive Name.StaysBelow : (depth : Nat) → List Name → Prop
  | nil (depth : Nat) : StaysBelow depth []
  | idle {depth : Nat} {s : Name} {rest : List Name} (hs : s.isIdle = true)
      (next : StaysBelow depth rest) : StaysBelow depth (s :: rest)
  | up {depth : Nat} {rest : List Name} (next : StaysBelow depth rest) :
      StaysBelow (depth + 1) (Name.up :: rest)
  | down {depth : Nat} {s : Name} {rest : List Name} (hs : s.isIdle = false) (hup : s ≠ Name.up)
      (next : StaysBelow (depth + 1) rest) : StaysBelow depth (s :: rest)

namespace Name.StaysBelow

variable {depth : Nat} {segs : List Name}

theorem of_append (h : StaysBelow depth (segs ++ more)) : StaysBelow depth segs := by
  induction segs generalizing depth with
  | nil => exact .nil depth
  | cons s segs ih =>
    cases h with
    | idle hs next => exact .idle hs (ih next)
    | up next => exact .up (ih next)
    | down hs hup next => exact .down hs hup (ih next)

theorem of_idle (h : StaysBelow depth (s :: segs)) (hs : s.isIdle) : StaysBelow depth segs := by
  cases h with
  | idle _ next => exact next
  | up => cases hs
  | down hs' => simp [hs] at hs'

theorem of_up (h : StaysBelow depth (Name.up :: segs)) :
    ∃ above, depth = above + 1 ∧ StaysBelow above segs := by
  cases h with
  | idle hs => cases hs
  | up next => exact ⟨_, rfl, next⟩
  | down _ hup => exact absurd rfl hup

theorem of_step (h : StaysBelow depth (s :: segs)) (hs : s.IsStep) :
    StaysBelow (depth + 1) segs := by
  cases h with
  | idle hs' => simp [isIdle, hs.ne_nil, hs.ne_here] at hs'
  | up => exact absurd rfl hs.ne_up
  | down _ _ next => exact next

theorem filter_iff : StaysBelow depth (segs.filter (!·.isEmpty)) ↔ StaysBelow depth segs := by
  induction segs generalizing depth with
  | nil => rfl
  | cons s segs ih =>
    by_cases hs : s = []
    · subst hs
      rw [List.filter_cons_of_neg (by simp), ih]
      exact ⟨.idle rfl, fun h => h.of_idle rfl⟩
    · rw [List.filter_cons_of_pos (by simpa using hs)]
      constructor <;> intro h
      · cases h with
        | idle hs next => exact .idle hs (ih.1 next)
        | up next => exact .up (ih.1 next)
        | down hs hup next => exact .down hs hup (ih.1 next)
      · cases h with
        | idle hs next => exact .idle hs (ih.2 next)
        | up next => exact .up (ih.2 next)
        | down hs hup next => exact .down hs hup (ih.2 next)

end Name.StaysBelow

theorem staysBelow_of_stays {segs : List String}
    (h : Zip.Entry.isEnclosed.stays depth (segs.filterMap Path.part?)) :
    Name.StaysBelow depth (segs.map ofText) := by
  induction segs generalizing depth with
  | nil => exact .nil depth
  | cons s segs ih =>
    rw [List.map_cons]
    by_cases hidle : s = "" ∨ s = "."
    · have hpart : Path.part? s = none := by
        rw [Path.part?, if_pos (by simpa using hidle)]
      refine .idle ?_ (ih ?_)
      · rcases hidle with rfl | rfl <;> rfl
      · rwa [List.filterMap_cons_none hpart] at h
    rw [not_or] at hidle
    by_cases hup : s = ".."
    · subst hup
      have hpart : Path.part? ".." = some .up := rfl
      rw [List.filterMap_cons_some hpart] at h
      cases depth with
      | zero => cases h
      | succ depth => exact .up (ih h)
    · have hpart : Path.part? s = some (.name s) := by
        rw [Path.part?, if_neg (by simpa using hidle), if_neg hup]
      rw [List.filterMap_cons_some hpart] at h
      have hne : ∀ {t : String}, s ≠ t → ofText s ≠ ofText t :=
        fun hst heq => hst (Bytes.ofText_injective heq)
      refine .down ?_ (hne hup) (ih h)
      rw [Name.isIdle, Bool.or_eq_false_iff, decide_eq_false_iff_not]
      exact ⟨by simpa using hidle.1, hne hidle.2⟩

/-- A path that lies on the way to a destination, or leads below it by its name. -/
structure Path.Enclosed (dest a : String) : Prop where
  absolute : Path.isAbsolute a = Path.isAbsolute dest
  steps : Name.steps (ofText a) <+: Name.steps (ofText dest) ∨
    ∃ below, Name.steps (ofText a) = Name.steps (ofText dest) ++ below ∧ Name.StaysBelow 0 below

namespace Path.Enclosed

variable {dest a a' : String}

theorem of_prefix (h : Enclosed dest a) (habs : isAbsolute a' = isAbsolute a)
    (hsteps : Name.steps (ofText a') <+: Name.steps (ofText a)) : Enclosed dest a' := by
  refine ⟨habs.trans h.absolute, ?_⟩
  rcases h.steps with hbefore | ⟨below, hbelow, hstays⟩
  · exact .inl (hsteps.trans hbefore)
  · rw [hbelow] at hsteps
    rcases List.prefix_or_prefix_of_prefix hsteps (List.prefix_append _ below) with hbefore | hafter
    · exact .inl hbefore
    · obtain ⟨first, hfirst⟩ := hafter
      rw [← hfirst, List.prefix_append_right_inj] at hsteps
      obtain ⟨more, rfl⟩ := hsteps
      exact .inr ⟨first, hfirst.symm, hstays.of_append⟩

theorem of_mem_ancestors (h : Enclosed dest a)
    (hr : r ∈ (a : Route).ancestors) : ∃ a', r = { start := a' } ∧ Enclosed dest a' := by
  obtain ⟨a', ha', rfl⟩ : ∃ a' ∈ ancestors a, (a' : Route) = r := by
    simpa [Route.ancestors] using hr
  obtain ⟨habs, hsteps⟩ := steps_of_mem_ancestors ha'
  exact ⟨a', rfl, h.of_prefix habs hsteps⟩

end Path.Enclosed

theorem Zip.Entry.enclosed {e : Zip.Entry} (h : e.isEnclosed) (dest : String) :
    Path.Enclosed dest (Path.join dest e.name) := by
  rw [isEnclosed, Bool.and_eq_true, Path.parts] at h
  have hrelative : Path.isAbsolute e.name = false := by
    rw [← Bool.not_eq_true]
    intro habs
    rw [if_pos habs] at h
    cases h.2
  have hstays : isEnclosed.stays 0 ((Path.segments e.name).filterMap Path.part?) := by
    have hparts := h.2
    rw [if_neg (by simp [hrelative])] at hparts
    split at hparts
    · exact hparts
    · exact hparts
  refine ⟨Path.isAbsolute_join hrelative, .inr ⟨Name.steps (ofText e.name), ?_, ?_⟩⟩
  · rw [Path.ofText_join hrelative, Name.steps_below]
  · rw [Name.steps, Name.StaysBelow.filter_iff, Bytes.split_ofText]
    exact staysBelow_of_stays hstays

namespace Disk

variable {d d' : Disk} {f : Bool} {dest a : String} {D p : Place} {l : Nat} {k segs : List Name}
  {c : Bytes} {t : Target}

/-- What is found is a directory, or below a directory. -/
def Target.EndsIn (D : Place) : Target → Prop
  | .vacant p _ => inside D p = true
  | .present p e => e = .directory ∨ inside D p = true

theorem Linkless.endsIn_of_walkLinks (h : Linkless D d) (hstays : Name.StaysBelow k.length segs)
    (hwalk : d.walkLinks f l (D ++ k) segs = .ok t) : t.EndsIn D := by
  rw [walkLinks_eq_ok_iff] at hwalk
  induction segs generalizing k with
  | nil =>
    cases hwalk
    exact .inl rfl
  | cons s segs ih =>
    have hplace : ∀ n, D ++ k ++ [n] = D ++ (k ++ [n]) := fun n => List.append_assoc _ _ _
    have hinside : inside D (D ++ k ++ [s]) := by
      rw [hplace]
      exact inside_append (by simp)
    cases hwalk with
    | idle next => exact ih (hstays.of_idle rfl) next
    | here _ next => exact ih (hstays.of_idle rfl) next
    | up _ next =>
      obtain ⟨depth, hdepth, hrest⟩ := hstays.of_up
      obtain ⟨k, n, rfl⟩ := List.eq_nil_or_concat' k |>.resolve_left (by
        rintro rfl
        cases hdepth)
      rw [← List.append_assoc, List.dropLast_concat] at next
      refine ih (?_ : Name.StaysBelow k.length segs) next
      rwa [← show k.length = depth by simpa using hdepth] at hrest
    | vacant => exact hinside
    | down _ step _ next =>
      rw [hplace] at next
      exact ih (by simpa using hstays.of_step step) next
    | file => exact .inr hinside
    | shown _ _ found => exact absurd found (h _ _ hinside)
    | link _ _ found => exact absurd found (h _ _ hinside)

section

variable (h : Enclosure dest D d) (hlinkless : Linkless D d) (ha : Path.Enclosed dest a)
include h hlinkless ha

theorem Enclosure.leadsTo_or_endsIn :
    (∃ P, d.LeadsTo (ofText a) P) ∨ ∀ f t, d.resolve f a = .ok t → t.EndsIn D := by
  have habs : Name.isAbsolute (ofText a) = Name.isAbsolute (ofText dest) := by
    rw [Path.isAbsolute_ofText, Path.isAbsolute_ofText, ha.absolute]
  rcases ha.steps with hbefore | ⟨below, hbelow, hstays⟩
  · exact .inl (h.leadsTo.exists_of_prefix habs hbefore)
  cases below with
  | nil => exact .inl (h.leadsTo.exists_of_prefix habs (by simp [hbelow]))
  | cons n below =>
    refine .inr fun f t hres => ?_
    rw [Disk.resolve_eq (ne_nil_of_resolve hres) (followable_of_resolve hres)] at hres
    change d.walkLinks f linkLimit (startIn d.home (ofText a))
      (Bytes.split Name.slash (ofText a)) = .ok t at hres
    -- the walk arrives at the destination and goes on from there
    obtain ⟨before, after, hsplit, hbefore, hafter⟩ := List.filter_eq_append_iff.1 hbelow
    obtain ⟨idle, rest, rfl, hidle, hn, hrest⟩ := List.filter_eq_cons_iff.1 hafter
    rw [hsplit, ← List.append_assoc] at hres
    obtain ⟨left, P, harr, hwalk⟩ := exists_arrives (by simpa using hn) hres
    have hleads : d.LeadsTo (ofText dest) P := by
      refine ⟨left, ?_⟩
      rw [startIn, ← habs]
      refine harr.of_filter_eq ?_
      rw [List.filter_append, hbefore, List.filter_eq_nil_iff.2 hidle, List.append_nil, steps_filter]
      rfl
    obtain rfl := hleads.unique h.leadsTo
    refine hlinkless.endsIn_of_walkLinks (k := []) ?_ (by rwa [List.append_nil])
    rw [← Name.StaysBelow.filter_iff, List.filter_cons_of_pos (by simpa using hn), hrest]
    exact hstays

theorem Enclosure.inside_of_vacant (hres : d.resolve false a = .ok (.vacant p s)) : inside D p := by
  rcases h.leadsTo_or_endsIn hlinkless ha with ⟨P, hP⟩ | hends
  · have hdir := hP.resolve_eq (r := { start := a }) (ne_nil_of_resolve hres)
      (followable_of_resolve hres)
    obtain ⟨q, e, hpresent⟩ := exists_present_of_resolve hdir
    cases hpresent.symm.trans hres
  · exact hends _ _ hres

theorem Enclosure.inside_of_writePlace (hp : d.writePlace a = .ok p) : inside D p := by
  obtain ⟨t, hres, hnotdir, hin⟩ : ∃ t, d.resolve true a = .ok t ∧
      (∀ P, t ≠ .present P .directory) ∧ (t.EndsIn D → inside D p) := by
    rcases writePlace_eq_ok hp with ⟨c, hres⟩ | hres
    · exact ⟨_, hres, by simp, fun hends => hends.resolve_left (by simp)⟩
    · exact ⟨_, hres, by simp, id⟩
  rcases h.leadsTo_or_endsIn hlinkless ha with ⟨P, hP⟩ | hends
  · have hdir := hP.resolve_eq (r := { start := a }) (ne_nil_of_resolve hres)
      (followable_of_resolve hres)
    exact absurd (Except.ok.inj (hres.symm.trans hdir)) (hnotdir P)
  · exact hin (hends _ _ hres)

end

/-- A destination without links stays one, and nothing but what is below it changes. -/
def EnclosesPlainly (dest : String) (D : Place) (d d' : Disk) : Prop :=
  Enclosure dest D d → Linkless D d →
    (Enclosure dest D d' ∧ Spares (inside D · = true) d d') ∧ Linkless D d'

theorem EnclosesPlainly.frame (dest : String) (D : Place) : Frame (EnclosesPlainly dest D) where
  refl d h hlinkless := ⟨⟨h, .refl _ d⟩, hlinkless⟩
  trans h h' hd hlinkless := by
    obtain ⟨⟨hd', hs⟩, hlinkless'⟩ := h hd hlinkless
    obtain ⟨⟨hd'', hs'⟩, hlinkless''⟩ := h' hd' hlinkless'
    exact ⟨⟨hd'', hs.trans hs'⟩, hlinkless''⟩

end Disk

namespace Archive

open Disk

variable {dest a : String} {D : Place}

/-! ### Entries of zip archives -/

theorem moves_createDirectories (ha : Path.Enclosed dest a) :
    Moves (EnclosesPlainly dest D) (OnDisk.createDirectories a) := by
  refine Frame.within ?_ _
  refine fun d => OnDisk.moves_createChain (EnclosesPlainly.frame dest D) _ ?_ d
  intro r hr d d' hmake hd hlinkless
  obtain ⟨a', rfl, ha'⟩ := ha.of_mem_ancestors hr
  obtain ⟨p, s, hres, rfl⟩ := createDirectory_eq_ok hmake
  have hvacant := hd.sound.vacant_of_resolve hres
  exact ⟨hd.put (hd.inside_of_vacant hlinkless ha' hres) hvacant (by simp),
    hlinkless.grows (grows_put_directory hvacant)⟩

theorem moves_createParent (ha : Path.Enclosed dest a) :
    Moves (EnclosesPlainly dest D) (OnDisk.createParent a) := by
  rw [OnDisk.createParent]
  split
  · next directory hdirectory =>
    obtain ⟨a', hparent, rfl⟩ : ∃ a', Path.parent? a = some a' ∧ { start := a' } = directory := by
      simpa [Route.parent?] using hdirectory
    obtain ⟨habs, hsteps⟩ := Path.steps_of_parent? hparent
    exact moves_createDirectories (ha.of_prefix habs hsteps)
  · exact (EnclosesPlainly.frame dest D).pure _

theorem moves_writeFile (ha : Path.Enclosed dest a) (contents : Bytes) :
    Moves (EnclosesPlainly dest D) (OnDisk.change (·.writeFile a contents)) := by
  refine OnDisk.moves_change (EnclosesPlainly.frame dest D) fun d d' hwrite hd hlinkless => ?_
  obtain ⟨p, hp, rfl⟩ := writeFile_eq_ok.1 hwrite
  have hplace := hd.sound.of_writePlace hp
  exact ⟨hd.fill (hd.inside_of_writePlace hlinkless ha hp) hplace,
    hlinkless.grows (hd.sound.grows_fill hplace)⟩

section Classes

open OnDisk (Closed)

variable {C : (α : Type) → Action Disk α → Prop} (hC : Closed K P C)
  (hdirectories : ∀ a, Path.Enclosed dest a → C Unit (OnDisk.createDirectories a))
  (hparent : ∀ a, Path.Enclosed dest a → C Unit (OnDisk.createParent a))
  (hwrite : ∀ a contents, Path.Enclosed dest a → K (·.writeFile a contents))
include hC hdirectories hparent hwrite

theorem closed_unpackEntry (archive : String) (file : Bytes) (index : Nat) (e : Zip.Entry) :
    C Unit (unpackEntry archive dest file index e) := by
  have hfault : ∀ context f, C Unit (.fail (.within context (.fault f))) := fun _ _ =>
    hC.fail (hC.routine.within _ _ (hC.routine.fault _))
  rw [unpackEntry]
  split
  · exact hfault _ _
  split
  · exact hC.fail (hC.routine.refusal _ nofun)
  next henclosed =>
  have htarget := e.enclosed (by simpa using henclosed) dest
  simp only
  split
  · exact hdirectories _ htarget
  · refine hC.bind (hparent _ htarget) fun _ => ?_
    refine hC.bind (hC.within _ (hC.change (hwrite _ _ htarget))) fun _ => ?_
    split
    · exact hfault _ _
    · exact hC.pure _

theorem closed_unpackContents (archive : String) (read : Except Fault Bytes) :
    C Unit (unpackContents archive dest read) := by
  have hentries : ∀ file index entries, C Unit (unpackEntries archive dest file index entries) := by
    intro file index entries
    induction entries generalizing index with
    | nil => exact hC.pure _
    | cons e rest ih =>
      exact hC.bind (closed_unpackEntry hC hdirectories hparent hwrite archive file index e) fun _ =>
        ih _
  have hfault : ∀ context f, C Unit (.fail (.within context (.fault f))) := fun _ _ =>
    hC.fail (hC.routine.within _ _ (hC.routine.fault _))
  cases read with
  | error f => exact hfault _ _
  | ok file =>
    rw [unpackContents]
    generalize Zip.directory? file = listed
    cases listed with
    | none => exact hfault _ _
    | some entries => exact hentries file 0 entries

end Classes

/-- Where no link stands below the destination, unpacking a zip archive changes nothing else and
brings none. -/
theorem moves_unpackContents (archive : String) (read : Except Fault Bytes) :
    Moves (EnclosesPlainly dest D) (unpackContents archive dest read) :=
  closed_unpackContents (OnDisk.closed_changes (EnclosesPlainly.frame dest D))
    (fun _ => moves_createDirectories) (fun _ => moves_createParent)
    (fun _ contents ha => moves_writeFile ha contents) archive read

end Archive

end AgentChain
