import AgentChain.Proofs.Archive.Tar
import AgentChain.Proofs.Archive.Unpack
import AgentChain.Proofs.FileTree.Filing
import AgentChain.Proofs.Verify

/-!
# Unpacking into an empty directory

The members of a written archive are unpacked one after the other. Before each of them the
directories on its way are made, those that are missing. As long as no member lies on the way of
another one, nothing can stand in the way, and in the end the files below the destination are exactly
those of the archive.
-/

namespace AgentChain

open Bytes (ofText)

namespace Route

theorem bytes_names_concat (dest : String) (k : List Name) (n : Name) :
    (⟨dest, k ++ [n]⟩ : Route).bytes = Name.below (⟨dest, k⟩ : Route).bytes n := by
  simp [Route.bytes]

theorem zero_not_mem_bytes {dest names} (hdest : 0 ∉ ofText dest)
    (hnames : ∀ n ∈ names, 0 ∉ n) : 0 ∉ (⟨dest, names⟩ : Route).bytes := by
  induction names using List.reverseRecOn with
  | nil => exact hdest
  | append_singleton names n ih =>
    have hinit := ih fun m hm => hnames m (List.mem_append_left _ hm)
    have hlast : 0 ∉ n := hnames n (by simp)
    have hslash : (0 : UInt8) ≠ Name.slash := by decide
    rw [bytes_names_concat, Name.below]
    split <;> simp [hinit, hlast, hslash]

end Route

namespace Tar.Member

variable {m : Member} {file : List Name × Bytes}

/-- A member brings a file, by the names in its path. -/
structure Brings (m : Member) (file : List Name × Bytes) : Prop where
  holds : ∃ path, Bytes.split Name.slash path = file.1 ∧ m.Holds path file.2
  proper : ∀ n ∈ file.1, n.Proper

namespace Brings

theorem ne_nil (h : m.Brings file) : file.1 ≠ [] := by
  obtain ⟨path, hnames, -⟩ := h.holds
  rw [← hnames]
  exact Bytes.split_ne_nil _ path

theorem names?_eq (h : m.Brings file) : m.names? = some file.1 := by
  obtain ⟨path, hnames, hm⟩ := h.holds
  have hup : Name.up ∉ file.1 := fun hmem => (h.proper _ hmem).ne_up rfl
  rw [names?, hm.named, hnames, if_neg (by simpa using hup), List.filter_eq_self.2]
  intro n hn
  simp [Name.isIdle, (h.proper n hn).ne_nil, (h.proper n hn).ne_here]

theorem isDirectory_eq (h : m.Brings file) : m.isDirectory = false := by
  obtain ⟨path, hnames, hm⟩ := h.holds
  have hlast : path.getLast? ≠ some Name.slash := by
    intro hlast
    obtain ⟨init, rfl⟩ := List.getLast?_eq_some_iff.1 hlast
    rw [Bytes.split_append_cons] at hnames
    exact (h.proper [] (by simp [← hnames])).ne_nil rfl
  simp [isDirectory, hm.kind, hm.named, hlast]

theorem unpackTo_eq (h : m.Brings file) (dest path : Route) :
    Archive.unpackTo dest m path = Archive.unpackFile m path := by
  obtain ⟨_, -, hm⟩ := h.holds
  rw [Archive.unpackTo, hm.kind]
  simp [Header.Kind.isRemark, h.isDirectory_eq]

end Brings

end Tar.Member

namespace Disk

variable {d : Disk} {f : Bool} {r : Route} {dest : String} {D p P : Place} {e : Entry}
  {files : List (List Name × Bytes)} {tops : List (List Name)} {k names : List Name} {n : Name}
  {c : Bytes}

/-! ### Routes below a destination -/

theorem look?_ne_none_of_resolve (h : d.resolve true r = .ok (.present P e)) : d.look? r ≠ none := by
  obtain ⟨p, e', hp⟩ := exists_present_of_resolve h
  simp [look?, hp]

theorem Followable.of_isPrefix (h : Followable (⟨dest, names⟩ : Route).bytes)
    (hk : k <+: names) : Followable (⟨dest, k⟩ : Route).bytes := by
  obtain ⟨more, rfl⟩ := hk
  induction more using List.reverseRecOn with
  | nil => simpa using h
  | append_singleton more n ih =>
    rw [← List.append_assoc, Route.bytes_names_concat] at h
    exact ih h.of_below

theorem vacant_concat (hk : d.get? (D ++ k) = some .directory) (hn : n.Proper)
    (hfree : d.get? (D ++ (k ++ [n])) = none) : d.Vacant (D ++ (k ++ [n])) :=
  ⟨hfree, D ++ k, n, by rw [List.append_assoc], hk, hn⟩

/-! ### What stands below a destination -/

/-- Below the place of a destination stand the given files, and directories only on the way to the
given ones. -/
structure Spread (dest : String) (D : Place) (files : List (List Name × Bytes))
    (tops : List (List Name)) (d : Disk) : Prop where
  sound : d.Sound
  reached : d.resolve true dest = .ok (.present D .directory)
  directory : d.get? D = some .directory
  opened : ∀ q, D <+: q → q ∉ d.closed
  file_iff : ∀ k c, d.get? (D ++ k) = some (.file c) ↔ (k, c) ∈ files
  above : ∀ k, d.get? (D ++ k) = some .directory → k = [] ∨ ∃ t ∈ tops, k <+: t
  link : ∀ k t, d.get? (D ++ k) ≠ some (.symlink t)

namespace Spread

variable (h : Spread dest D files tops d)
include h

theorem leadsTo : d.LeadsTo (ofText dest) D :=
  leadsTo_of_resolve h.reached

theorem leadsTo_names (hk : d.get? (D ++ k) = some .directory) :
    d.LeadsTo (⟨dest, k⟩ : Route).bytes (D ++ k) := by
  have hleads := h.sound.leadsTo_names (r := dest) h.leadsTo hk h.opened
  rwa [List.nil_append] at hleads

theorem link_concat (t : Bytes) : d.get? (D ++ k ++ [n]) ≠ some (.symlink t) := by
  rw [List.append_assoc]
  exact h.link _ t

theorem free_or_directory (hclear : ∀ c, (k, c) ∉ files) :
    d.get? (D ++ k) = none ∨ d.get? (D ++ k) = some .directory := by
  cases hget : d.get? (D ++ k) with
  | none => exact .inl rfl
  | some e =>
    cases e with
    | file c => exact absurd ((h.file_iff _ c).1 hget) (hclear c)
    | symlink t => exact absurd hget (h.link _ t)
    | directory => exact .inr rfl

section

variable (hk : d.get? (D ++ k) = some .directory) (hn : n.Proper)
  (hr : Followable (⟨dest, k ++ [n]⟩ : Route).bytes)
include hk hn hr

theorem points : d.Points ⟨dest, k ++ [n]⟩ (D ++ k) n :=
  ⟨hn, hr, _, Route.bytes_names_concat dest k n, h.leadsTo_names hk⟩

theorem resolve_concat : d.resolve f ⟨dest, k ++ [n]⟩ = match d.get? (D ++ (k ++ [n])) with
      | some e => .ok (.present (D ++ (k ++ [n])) e)
      | none => .ok (.vacant (D ++ (k ++ [n])) false) := by
  have hpoints := h.points hk hn hr
  have hlookup : d.resolve f ⟨dest, k ++ [n]⟩ = d.lookup (D ++ k) n := by
    cases f with
    | false => exact hpoints.resolve_false
    | true => exact hpoints.resolve_true h.link_concat
  rw [hlookup, lookup, if_neg (h.opened _ (List.prefix_append D k)), hk, List.append_assoc]
  cases d.get? (D ++ (k ++ [n])) <;> simp

end

theorem resolve_directory (hk : d.get? (D ++ k) = some .directory)
    (hr : Followable (⟨dest, k⟩ : Route).bytes) :
    d.resolve true ⟨dest, k⟩ = .ok (.present (D ++ k) .directory) := by
  obtain rfl | ⟨k, n, rfl⟩ := List.eq_nil_or_concat' k
  · rw [List.append_nil]
    exact h.reached
  · obtain ⟨hn, habove⟩ := h.sound.of_get?_concat (by rwa [← List.append_assoc] at hk)
    rw [h.resolve_concat habove hn hr, hk]

theorem eq_of_leadsTo (hP : d.LeadsTo (⟨dest, k⟩ : Route).bytes P)
    (hproper : ∀ n ∈ k, n.Proper) : P = D ++ k ∧ d.get? (D ++ k) = some .directory := by
  induction k using List.reverseRecOn generalizing P with
  | nil =>
    rw [List.append_nil]
    exact ⟨hP.unique h.leadsTo, h.directory⟩
  | append_singleton k n ih =>
    have hn : n.Proper := hproper n (by simp)
    rw [Route.bytes_names_concat] at hP
    obtain ⟨mid, M, hM, hlast⟩ := hP.exists_before hn.ne_nil hn.no_slash
    obtain ⟨rfl, -⟩ := ih hM fun m hm => hproper m (List.mem_append_left _ hm)
    rw [walkLinks_name hn.isStep (.inr h.link_concat)] at hlast
    obtain ⟨e, he, heq⟩ | ⟨-, -, heq⟩ := lookup_eq_ok hlast
    · cases heq
      rw [← List.append_assoc]
      exact ⟨rfl, he⟩
    · cases heq

theorem look?_eq_none (hk : d.get? (D ++ k) = none) (hproper : ∀ n ∈ k, n.Proper) :
    d.look? ⟨dest, k⟩ = none := by
  obtain rfl | ⟨k, n, rfl⟩ := List.eq_nil_or_concat' k
  · rw [List.append_nil, h.directory] at hk
    cases hk
  rw [look?]
  split
  · next p e hres =>
    have hn : n.Proper := hproper n (by simp)
    obtain ⟨P, hP, hpoints⟩ := exists_points (Route.bytes_names_concat dest k n) hn hres
    obtain ⟨rfl, -⟩ := h.eq_of_leadsTo hP fun m hm => hproper m (List.mem_append_left _ hm)
    rw [hpoints.resolve_false] at hres
    obtain ⟨e', he, -⟩ | ⟨-, -, heq⟩ := lookup_eq_ok hres
    · rw [List.append_assoc, hk] at he
      cases he
    · cases heq
  · rfl

/-! ### One more entry -/

theorem resolve_put (hp : p ≠ []) (hfree : d.get? p = none) :
    (d.put p e).resolve true dest = .ok (.present D .directory) := by
  have hne : (dest : Route).bytes ≠ [] := by
    intro hnil
    have hres := h.reached
    simp [resolve, hnil] at hres
  exact (h.leadsTo.mono (keeps_put hp hfree) rfl).resolve_eq hne (followable_of_resolve h.reached)

theorem put (hv : d.Vacant (D ++ k)) (he : ∀ t, e ≠ .symlink t)
    (hfiles : ∀ j c, (j, c) ∈ files' ↔ j = k ∧ e = .file c ∨ (j, c) ∈ files)
    (htops : ∀ t ∈ tops, t ∈ tops') (hdir : e = .directory → k ∈ tops') :
    Spread dest D files' tops' (d.put (D ++ k) e) where
  sound := h.sound.put hv fun t ht => absurd ht (he t)
  reached := h.resolve_put hv.ne_nil hv.free
  directory := (keeps_put hv.ne_nil hv.free).directory D h.directory
  opened := h.opened
  file_iff j c := by
    rw [get?_put hv.ne_nil, hfiles, ← h.file_iff]
    by_cases heq : j = k
    · simp [heq, hv.free]
    · simp [heq]
  above j hj := by
    rw [get?_put hv.ne_nil] at hj
    split at hj
    · next heq =>
      rw [List.append_cancel_left heq]
      exact .inr ⟨k, hdir (Option.some.inj hj), List.prefix_refl k⟩
    · exact (h.above j hj).imp_right fun ⟨t, ht, hpre⟩ => ⟨t, htops t ht, hpre⟩
  link j t := by
    rw [get?_put hv.ne_nil]
    split
    · simp [he t]
    · exact h.link j t

theorem mono (htops : ∀ t ∈ tops, ∃ t' ∈ tops', t <+: t') : Spread dest D files tops' d where
  sound := h.sound
  reached := h.reached
  directory := h.directory
  opened := h.opened
  file_iff := h.file_iff
  above k hk := (h.above k hk).imp_right fun ⟨t, ht, hpre⟩ =>
    have ⟨t', ht', hpre'⟩ := htops t ht
    ⟨t', ht', hpre.trans hpre'⟩
  link := h.link

theorem cons_top (t : List Name) : Spread dest D files (t :: tops) d :=
  h.mono fun t' ht' => ⟨t', List.mem_cons_of_mem t ht', List.prefix_refl t'⟩

/-! ### Making directories -/

theorem result_ensureInside (hk : d.get? (D ++ k) = some .directory)
    (hr : Followable (⟨dest, k⟩ : Route).bytes) :
    (Archive.ensureInside dest ⟨dest, k⟩).result d = (.ok (), d) := by
  have hplace : d.canonical? ⟨dest, k⟩ = .ok (D ++ k) := by
    simp [canonical?, h.resolve_directory hk hr, hk]
  have htop : d.canonical? dest = .ok D := by
    simp [canonical?, h.reached, h.directory]
  rw [Archive.ensureInside, Action.result_bind, OnDisk.result_read, hplace]
  simp only [Except.mapError]
  rw [Action.result_bind, OnDisk.result_read, htop]
  simp [Except.mapError]

theorem makeDirectories (hk : d.get? (D ++ k) = some .directory) (hn : n.Proper)
    (hclear : ∀ c, (k ++ [n], c) ∉ files) (hr : Followable (⟨dest, k ++ [n]⟩ : Route).bytes) :
    ∃ d', (OnDisk.makeDirectories ⟨dest, k ++ [n]⟩).result d = (.ok (), d') ∧
      Spread dest D files ((k ++ [n]) :: tops) d' ∧
      d'.get? (D ++ (k ++ [n])) = some .directory := by
  have hempty : (⟨dest, k ++ [n]⟩ : Route).isEmpty = false := by
    simp [Route.isEmpty]
  rw [OnDisk.makeDirectories, Action.result_ofResult, createDirectories, Route.ancestors_concat,
    createChain, hempty]
  rcases h.free_or_directory hclear with hget | hget
  · have hv := vacant_concat hk hn hget
    refine ⟨d.put (D ++ (k ++ [n])) .directory, ?_, h.put hv (by simp) (by simp) ?_ (by simp), ?_⟩
    · simp [createDirectory, h.resolve_concat hk hn hr, hget, Except.mapError]
    · exact fun t => List.mem_cons_of_mem _
    · rw [get?_put hv.ne_nil, if_pos rfl]
  · refine ⟨d, ?_, h.cons_top _, hget⟩
    simp [createDirectory, isDirectory, follow?, h.resolve_concat hk hn hr, hget, Except.mapError]

end Spread

end Disk

namespace Archive

open AgentChain.Action

variable {d d' : Disk} {dest : Route} {directories : List Route} {r : Route}

theorem result_createInside_concat (h : (createInside dest directories).result d = (.ok (), d')) :
    (createInside dest (directories ++ [r])).result d = (createInside dest [r]).result d' := by
  induction directories generalizing d with
  | nil =>
    rw [createInside, result_pure] at h
    cases h
    rfl
  | cons first rest ih =>
    rw [createInside] at h
    rw [List.cons_append, createInside]
    split at h
    · obtain ⟨⟨⟩, d₁, hinside, h⟩ := result_bind_eq_ok.1 h
      obtain ⟨⟨⟩, d₂, hmade, h⟩ := result_bind_eq_ok.1 h
      rw [result_bind_of_ok hinside, result_bind_of_ok hmade, ih h]
    · obtain ⟨⟨⟩, d₁, hmade, h⟩ := result_bind_eq_ok.1 h
      rw [result_bind_of_ok hmade, ih h]

theorem result_createInside_singleton (habove : r.parent? = some above)
    (hinside : (ensureInside dest above).result d = (.ok (), d₁))
    (hmade : (OnDisk.makeDirectories r).result d₁ = (.ok (), d₂)) :
    (createInside dest [r]).result d = (.ok (), d₂) := by
  rw [createInside, habove, result_bind_of_ok hinside, result_bind_of_ok hmade]
  rfl

end Archive

def Apart (a b : List Name) : Prop :=
  ¬ a <+: b ∧ ¬ b <+: a

theorem Apart.symm (h : Apart a b) : Apart b a :=
  ⟨h.2, h.1⟩

namespace Disk.Spread

open AgentChain.Action

variable {d : Disk} {dest : String} {D : Place} {files : List (List Name × Bytes)}
  {tops : List (List Name)} {k names : List Name} {n : Name} {c : Bytes}

theorem ensureDirectory (h : Spread dest D files tops d) (hproper : ∀ n ∈ k, n.Proper)
    (hclear : ∀ j, j <+: k → ∀ c, (j, c) ∉ files) (hr : Followable (⟨dest, k⟩ : Route).bytes) :
    ∃ d', (Archive.ensureDirectory dest ⟨dest, k⟩).result d = (.ok (), d') ∧
      Spread dest D files (k :: tops) d' ∧ d'.get? (D ++ k) = some .directory := by
  rw [Archive.ensureDirectory, result_bind, OnDisk.result_look]
  simp only
  -- Nothing is missing above what is there, so the induction is on the path.
  induction k using List.reverseRecOn with
  | nil =>
    obtain ⟨rest, hrest⟩ := (dest : Route).exists_ancestors_eq_cons
    have hnone :
        (dest : Route).ancestors.takeWhile (fun p => (d.look? p).isNone) = [] := by
      have hsome := look?_ne_none_of_resolve h.reached
      rw [hrest]
      exact List.takeWhile_cons_of_neg (by simpa using hsome)
    rw [hnone, List.append_nil]
    exact ⟨d, rfl, h.cons_top _, h.directory⟩
  | append_singleton k n ih =>
    have hn : n.Proper := hproper n (by simp)
    have hk : ∀ m ∈ k, m.Proper := fun m hm => hproper m (List.mem_append_left _ hm)
    have hpre : k <+: k ++ [n] := List.prefix_append k [n]
    rw [Route.ancestors_concat, List.takeWhile_cons]
    cases hlook : d.look? ⟨dest, k ++ [n]⟩ with
    | some e =>
      rcases h.free_or_directory (hclear _ (List.prefix_refl _)) with hget | hget
      · simp [h.look?_eq_none hget hproper] at hlook
      · exact ⟨d, rfl, h.cons_top _, hget⟩
    | none =>
      obtain ⟨d₁, hres, hspread, hdir⟩ :=
        ih hk (fun j hj => hclear j (hj.trans hpre)) (hr.of_isPrefix hpre)
      obtain ⟨d₂, hmade, hspread', hdir'⟩ :=
        hspread.makeDirectories hdir hn (hclear _ (List.prefix_refl _)) hr
      refine ⟨d₂, ?_, hspread'.mono ?_, hdir'⟩
      · simp only [Option.isNone_none, if_true, List.reverse_cons]
        rw [Archive.result_createInside_concat hres]
        exact Archive.result_createInside_singleton (by simp [Route.parent?])
          (hspread.result_ensureInside hdir (hr.of_isPrefix hpre)) hmade
      · intro t ht
        rcases List.mem_cons.1 ht with rfl | ht
        · exact ⟨_, List.mem_cons_self, List.prefix_refl _⟩
        rcases List.mem_cons.1 ht with rfl | ht
        · exact ⟨_, List.mem_cons_self, hpre⟩
        · exact ⟨t, List.mem_cons_of_mem _ ht, List.prefix_refl t⟩

theorem unpackMember (h : Spread dest D files tops d) (hm : m.Brings (names, c))
    (hfiles : ∀ file ∈ files, ¬ file.1 <+: names) (htops : ∀ t ∈ tops, ¬ names <+: t)
    (hr : Followable (⟨dest, names⟩ : Route).bytes) (archive : String) :
    ∃ d', (Archive.unpackMember archive dest m).result d = (.ok (), d') ∧
      Spread dest D ((names, c) :: files) (names.dropLast :: tops) d' := by
  obtain ⟨path, -, hholds⟩ := hm.holds
  obtain ⟨k, n, rfl⟩ := (List.eq_nil_or_concat' names).resolve_left hm.ne_nil
  have hn : n.Proper := hm.proper n (by simp)
  have hpre : k <+: k ++ [n] := List.prefix_append k [n]
  have hrk := hr.of_isPrefix hpre
  obtain ⟨d₁, hensured, hspread, hdir⟩ :=
    h.ensureDirectory (fun m hmem => hm.proper m (List.mem_append_left _ hmem))
      (fun j hj c hmem => hfiles _ hmem (hj.trans hpre)) hrk
  have hfree : d₁.get? (D ++ (k ++ [n])) = none := by
    refine (hspread.free_or_directory fun c hmem => hfiles _ hmem (List.prefix_refl _)).resolve_right
      fun hget => ?_
    obtain hnil | ⟨t, ht, hpre'⟩ := hspread.above _ hget
    · simp at hnil
    rcases List.mem_cons.1 ht with rfl | ht
    · simpa using hpre'.length_le
    · exact htops t ht hpre'
  have hcreated : d₁.createNew ⟨dest, k ++ [n]⟩ m.contents =
      .ok (d₁.put (D ++ (k ++ [n])) (.file c)) := by
    rw [createNew, newPlace, hspread.resolve_concat hdir hn hr, hfree, hholds.held]
    rfl
  rw [List.dropLast_concat]
  refine ⟨_, ?_, hspread.put (e := .file c) (vacant_concat hdir hn hfree) (by simp)
    (by simp [eq_comm]) (fun _ ht => ht) (by simp)⟩
  rw [Archive.unpackMember, hm.names?_eq]
  simp only [List.dropLast_concat]
  rw [if_neg (by simp), result_within, result_bind_of_ok hensured,
    result_bind_of_ok (hspread.result_ensureInside hdir hrk), hm.unpackTo_eq, Archive.unpackFile,
    result_bind_of_ok (OnDisk.result_changeOr_of_ok hcreated _), hholds.held, hholds.size,
    if_neg (lt_irrefl _)]
  rfl

theorem unpackMembers (hm : List.Forall₂ (fun file m => Tar.Member.Brings m file) more members)
    (h : Spread dest D files (files.map (·.1.dropLast)) d)
    (hapart : (files ++ more).Pairwise fun a b => Apart a.1 b.1)
    (hr : ∀ file ∈ more, Followable (⟨dest, file.1⟩ : Route).bytes) (archive : String) :
    ∃ d', (Archive.unpackMembers archive dest members).result d = (.ok (), d') ∧
      ∃ tops, Spread dest D (more.reverse ++ files) tops d' := by
  induction hm generalizing files d with
  | nil => exact ⟨d, rfl, _, h⟩
  | @cons file m more members hfile hm ih =>
    have happ : (file :: files ++ more).Pairwise fun a b => Apart a.1 b.1 :=
      (List.perm_middle.pairwise_iff fun hab => hab.symm).1 hapart
    have hhead : ∀ other ∈ files, Apart file.1 other.1 := fun other hother =>
      (List.pairwise_cons.1 happ).1 other (List.mem_append_left more hother)
    obtain ⟨d₁, hres, hspread⟩ := h.unpackMember hfile (fun other hother => (hhead other hother).2)
      (fun t ht => by
        obtain ⟨other, hother, rfl⟩ := List.mem_map.1 ht
        exact fun hpre => (hhead other hother).1 (hpre.trans (List.dropLast_prefix _)))
      (hr file List.mem_cons_self) archive
    obtain ⟨d₂, hres', tops, hspread'⟩ :=
      ih hspread happ fun other hother => hr other (List.mem_cons_of_mem file hother)
    refine ⟨d₂, ?_, tops, ?_⟩
    · rw [Archive.unpackMembers, result_bind_of_ok hres, hres']
    · rw [List.reverse_cons, List.append_assoc]
      exact hspread'

end Disk.Spread

namespace Disk

variable {d : Disk} {dest : String} {D : Place} {files : List (List Name × Bytes)}
  {tops : List (List Name)}

/-- A path where an empty directory stands, or where one can be made. -/
structure Fresh (d : Disk) (dest : String) (D : Place) : Prop where
  made : (d.createDirectories dest).1 = .ok ()
  reached : (d.createDirectories dest).2.resolve true dest = .ok (.present D .directory)
  directory : (d.createDirectories dest).2.get? D = some .directory
  opened : D ∉ (d.createDirectories dest).2.closed
  empty : (d.createDirectories dest).2.below D = []

deriving instance DecidableEq for Target

instance : Decidable (d.Fresh dest D) :=
  decidable_of_iff ((d.createDirectories dest).1 = .ok () ∧
      (d.createDirectories dest).2.resolve true dest = .ok (.present D .directory) ∧
      (d.createDirectories dest).2.get? D = some .directory ∧
      (d.createDirectories dest).2.closed.contains D = false ∧
      (d.createDirectories dest).2.below D = [])
    ⟨fun h => ⟨h.1, h.2.1, h.2.2.1, by simpa using h.2.2.2.1, h.2.2.2.2⟩,
      fun h => ⟨h.made, h.reached, h.directory, by simpa using h.opened, h.empty⟩⟩

theorem Fresh.emptyDirectory (h : d.Fresh dest D) (hd : d.Sound) :
    (d.createDirectories dest).2.EmptyDirectory dest D where
  leads := leadsTo_of_resolve h.reached
  directory := h.directory
  empty q hq := by
    obtain ⟨k, hk, rfl⟩ := inside_iff.1 hq
    by_contra hget
    obtain ⟨e, he⟩ := Option.ne_none_iff_exists'.1 hget
    have hmem := (hd.furnished_createDirectories dest).1.mem_below_iff.2 ⟨hk, he⟩
    rw [h.empty] at hmem
    cases hmem

theorem Fresh.spread (h : d.Fresh dest D) (hd : d.Sound) :
    Spread dest D [] [] (d.createDirectories dest).2 := by
  have hsound := (hd.furnished_createDirectories dest).1
  have hget : ∀ k, (d.createDirectories dest).2.get? (D ++ k) =
      if k = [] then some .directory else none := by
    intro k
    split
    · next hk => rw [hk, List.append_nil, h.directory]
    · next hk => exact (h.emptyDirectory hd).empty _ (inside_append hk)
  refine ⟨hsound, h.reached, h.directory, ?_, by simp [hget], by simp [hget], by simp [hget]⟩
  rintro q ⟨k, rfl⟩ hclosed
  obtain rfl | hk := eq_or_ne k []
  · exact h.opened (by simpa using hclosed)
  · exact hsound.closed _ hclosed (by rw [hget, if_neg hk])

theorem Spread.exists_treeFiles (h : Spread dest D files tops d) (hnodup : (files.map (·.1)).Nodup) :
    ∃ found, d.treeFiles dest = .ok found ∧ found.Perm files := by
  obtain ⟨found, hfound⟩ : ∃ found, d.treeFiles dest = .ok found := by
    rw [treeFiles, h.reached]
    exact ⟨_, rfl⟩
  refine ⟨found, hfound, ?_⟩
  rw [List.perm_ext_iff_of_nodup (h.sound.nodup_treeFiles hfound).of_map hnodup.of_map]
  rintro ⟨k, c⟩
  rw [h.sound.mem_treeFiles_iff h.reached hfound, ← h.file_iff]
  refine and_iff_right_of_imp fun hget => ?_
  rintro rfl
  rw [List.append_nil, h.directory] at hget
  cases hget

theorem Spread.result_describe (h : Spread dest D files tops d) (hnodup : (files.map (·.1)).Nodup)
    (hr : ∀ file ∈ files, Followable (⟨dest, file.1⟩ : Route).bytes) :
    ∃ found sorted : List (List Name × Bytes), d.treeFiles dest = .ok found ∧ found.Perm files ∧
      sorted.Perm files ∧ sorted.Pairwise (fun a b => shown a.1 ≤ shown b.1) ∧
      (Archive.describe dest).result d = (.ok (sorted.map Verify.entryOf), d) := by
  obtain ⟨found, hfound, hperm⟩ := h.exists_treeFiles hnodup
  obtain ⟨sorted, hsorted, hres⟩ := Verify.exists_describe h.sound hfound fun file hfile => by
    obtain ⟨hne, hget⟩ := (h.sound.mem_treeFiles_iff h.reached hfound).1 hfile
    exact ⟨_, h.sound.readBytes_names (r := dest) h.leadsTo hne hget h.opened
      (hr file (hperm.mem_iff.1 hfile))⟩
  exact ⟨found, sorted, hfound, hperm, hsorted.trans hperm, hres⟩

end Disk

namespace Archive

open AgentChain.Action Disk

variable {d : Disk} {archive dest : String} {D : Place} {files : List (List Name × Bytes)}
  {bytes : Bytes}

/-- The bytes of a tar archive carry files that can be told apart by their names as they are shown,
and none of which lies on the way of another one. -/
structure Carries (bytes : Bytes) (files : List (List Name × Bytes)) : Prop where
  archived : Tar.Archived (files.map fun file => (ofText (shown file.1), file.2)) bytes
  legible : ∀ file ∈ files, LegiblePath file.1
  apart : files.Pairwise fun a b => Apart a.1 b.1

theorem result_within_openFile (h : d.readBytes archive = .ok c) (context : Context) :
    (within context (OnDisk.read (·.openFile archive))).result d = (.ok (.file c), d) :=
  result_within_eq_ok.2 (OnDisk.result_read_eq_ok.2 ⟨openFile_of_readBytes h, rfl⟩)

theorem exists_members_of_archived [Gzip.Encoder] [Gzip.LawfulEncoder]
    (harchived : Tar.Archived (files.map fun file => (ofText (shown file.1), file.2)) bytes)
    (hlegible : ∀ file ∈ files, LegiblePath file.1) :
    ∃ members, List.Forall₂ (fun file m => Tar.Member.Brings m file) files members ∧
      membersOf (.file (Gzip.encode (bytes ++ Tar.ending))) = ⟨members, false⟩ := by
  obtain ⟨members, hheld, hread⟩ := Tar.read_archived harchived true
  refine ⟨members, ?_, by simp only [membersOf, Opened.read, Gzip.decode_encode, hread]⟩
  rw [List.forall₂_map_left_iff] at hheld
  have hboth := (List.forall₂_and_left files members).2 ⟨hlegible, hheld⟩
  refine hboth.imp fun file m h => ?_
  obtain ⟨hfile, hm⟩ := h
  exact ⟨⟨_, hfile.split_shown, hm⟩, hfile.proper⟩

namespace Carries

theorem exists_members [Gzip.Encoder] [Gzip.LawfulEncoder] (h : Carries bytes files) :
    ∃ members, List.Forall₂ (fun file m => Tar.Member.Brings m file) files members ∧
      membersOf (.file (Gzip.encode (bytes ++ Tar.ending))) = ⟨members, false⟩ :=
  exists_members_of_archived h.archived h.legible

theorem nodup_filenames (h : Carries bytes files) :
    ((files.map Verify.entryOf).map (·.filename)).Nodup := by
  rw [List.map_map, List.Nodup, List.pairwise_map]
  refine h.apart.imp_of_mem fun ha hb hab heq => hab.1 ?_
  exact (h.legible _ ha).shown_injective (h.legible _ hb) heq ▸ List.prefix_refl _

theorem result_count [Gzip.Encoder] [Gzip.LawfulEncoder] (h : Carries bytes files)
    (hread : d.readBytes archive = .ok (Gzip.encode (bytes ++ Tar.ending))) :
    (count archive).result d = (.ok files.length, d) := by
  obtain ⟨members, hbrings, hmembers⟩ := h.exists_members
  rw [count, result_bind_of_ok (result_within_openFile hread _), hmembers, hbrings.length_eq]
  rfl

end Carries

variable [Gzip.Encoder] [Gzip.LawfulEncoder] (h : Carries bytes files) (hd : d.Sound)
  (hfresh : d.Fresh dest D) (hread : d.readBytes archive = .ok (Gzip.encode (bytes ++ Tar.ending)))
include h hd hfresh hread

/-- A written archive is unpacked into an empty directory. Afterwards the files there are those of
the archive. -/
theorem result_unpack (hr : ∀ file ∈ files, Followable (⟨dest, file.1⟩ : Route).bytes) :
    ∃ d', (unpack archive dest).result d = (.ok (), d') ∧
      ∃ tops, Spread dest D files.reverse tops d' := by
  obtain ⟨members, hbrings, hof⟩ := h.exists_members
  obtain ⟨d', hres, tops, hspread⟩ :=
    Spread.unpackMembers hbrings (hfresh.spread hd) h.apart hr archive
  refine ⟨d', ?_, tops, by simpa using hspread⟩
  have hmade : (OnDisk.createDirectories dest).result d = (.ok (), (d.createDirectories dest).2) := by
    rw [OnDisk.result_createDirectories, hfresh.made]
    rfl
  rw [unpack, result_bind_of_ok (result_within_openFile hread _), result_bind_of_ok hmade, hof,
    result_bind_of_ok hres]
  rfl

/-- What is described after a written archive was unpacked into an empty directory, if there is room
for the paths. -/
theorem result_describe_unpack
    (hroom : ∀ file ∈ files, (ofText (Path.join dest (shown file.1))).length < pathLimit) :
    ∃ d', ∃ found sorted : List (List Name × Bytes), (unpack archive dest).result d = (.ok (), d') ∧
      d'.treeFiles dest = .ok found ∧ found.Perm files ∧ sorted.Perm files ∧
      sorted.Pairwise (fun a b => shown a.1 ≤ shown b.1) ∧
      (describe dest).result d' = (.ok (sorted.map Verify.entryOf), d') := by
  have hr : ∀ file ∈ files, Followable (⟨dest, file.1⟩ : Route).bytes := by
    intro file hfile
    refine ⟨?_, (h.legible file hfile).bytes_eq dest ▸ hroom file hfile⟩
    exact Route.zero_not_mem_bytes (followable_of_resolve hfresh.reached).no_zero fun n hn =>
      ((h.legible file hfile).proper n hn).no_zero
  obtain ⟨d', hres, tops, hspread⟩ := result_unpack h hd hfresh hread hr
  have hreverse := List.reverse_perm files
  have hnames : (files.reverse.map (·.1)).Nodup := by
    refine (hreverse.map _).nodup_iff.2 (List.Nodup.of_map shown ?_)
    have hshown := h.nodup_filenames
    rwa [List.map_map] at hshown ⊢
  obtain ⟨found, sorted, hfound, hperm, hsorted, hdescribe⟩ :=
    hspread.result_describe hnames fun file hfile => hr file (List.mem_reverse.1 hfile)
  exact ⟨d', found, sorted, hres, hfound, hperm.trans hreverse, hsorted.trans hreverse, hdescribe⟩

theorem result_tree_unpack (hfiles : m.files = files.map Verify.entryOf)
    (hroom : ∀ e ∈ m.files, (ofText (Path.join dest e.filename)).length < pathLimit) :
    ∃ d', (unpack archive dest).result d = (.ok (), d') ∧
      (Verify.tree m dest).result d' = (.ok (), d') := by
  obtain ⟨d', found, sorted, hres, -, -, hsorted, -, hdescribe⟩ := result_describe_unpack h hd hfresh
    hread fun file hfile => hroom (Verify.entryOf file) (hfiles ▸ List.mem_map_of_mem hfile)
  refine ⟨d', hres, ?_⟩
  rw [Verify.tree, result_bind, Verify.result_asIntegrity, hdescribe]
  simp only [Except.mapError, result_ofExcept, hfiles,
    Verify.compare_of_perm (hsorted.map _) h.nodup_filenames]

end Archive

end AgentChain
