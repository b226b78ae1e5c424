import AgentChain.Proofs.FileTree.Steady
import AgentChain.Proofs.Vendor.Rounds

/-!
# What vendoring writes

A pass of vendoring writes files by their names in one directory: each package under the file name of
the catalog, by way of another name, and the manifest in the same way. A round changes what stands at
its two names and nothing else, whatever the file names are, as long as nothing that stands at the
names in use is a link or stands elsewhere too. What a round has put in its place is found there until
something else is written under the same name.
-/

namespace AgentChain

open Bytes (ofText)
open AgentChain.Path (join)
open VendorManifest (fileName store)

/-! ### Segments after a path -/

namespace Path

variable {a s : String}

/-- A text that can stand between the slashes of a path. -/
structure IsSegment (s : String) : Prop where
  ne_empty : s ≠ ""
  no_slash : '/' ∉ s.toList

theorem IsName.isSegment (h : IsName s) : IsSegment s :=
  ⟨h.ne_empty, h.no_slash⟩

namespace IsSegment

theorem append (h : IsSegment s) (ht : '/' ∉ t.toList) : IsSegment (s ++ t) where
  ne_empty hempty := h.ne_empty (by simpa using (String.append_eq_empty_iff.mp hempty).1)
  no_slash := by simpa using ⟨h.no_slash, ht⟩

theorem isAbsolute_eq (h : IsSegment s) : isAbsolute s = false := by
  rw [isAbsolute, decide_eq_false_iff_not]
  exact fun hs => h.no_slash (List.mem_of_mem_head? hs)

theorem cases (h : IsSegment s) : IsName s ∨ s = "." ∨ s = ".." := by
  by_cases hhere : s = "."
  · exact .inr (.inl hhere)
  by_cases hup : s = ".."
  · exact .inr (.inr hup)
  exact .inl ⟨h.ne_empty, hhere, hup, h.no_slash⟩

theorem join_append (h : IsSegment s) (ht : '/' ∉ t.toList) : join a s ++ t = join a (s ++ t) := by
  rw [join_of_relative h.isAbsolute_eq, join_of_relative (h.append ht).isAbsolute_eq]
  split <;> simp [String.append_assoc]

end IsSegment

end Path

namespace Disk

open AgentChain.Path (IsSegment)

variable {d : Disk} {f : Bool} {r : Route} {P : Place} {n : Name} {a s : String} {t : Target}
  {c : Bytes}

theorem LeadsTo.aims_of_resolve (hP : d.LeadsTo (ofText a) P) (hs : IsSegment s)
    (h : d.resolve f (join a s) = .ok t) (ht : ∀ Q, t ≠ .present Q .directory) :
    d.Aims (join a s) P (ofText s) := by
  have hbytes : (join a s : Route).bytes =
      Name.below (ofText a) (ofText s) := Path.ofText_join hs.isAbsolute_eq
  have hne : ofText s ≠ [] := by simpa using hs.ne_empty
  have hslash : Name.slash ∉ ofText s := by
    rw [Bytes.slash_mem_ofText_iff]
    exact hs.no_slash
  obtain ⟨left, Q, -, hwalk⟩ := exists_leadsTo hbytes hne hslash h
  have hopen : Q ∉ d.closed := by
    intro hclosed
    rw [walkLinks_closed hne hclosed] at hwalk
    cases hwalk
  rcases hs.cases with hname | rfl | rfl
  · refine aims_join (hname.proper (fun hzero => ?_) (length_le_of_walkLinks hne hwalk)) hP
    exact (followable_of_resolve h).no_zero (hbytes ▸ Name.mem_below (.inr hzero))
  · have hhere : ofText "." = Name.here := by decide
    rw [hhere, walkLinks_here hopen, walkLinks_nil] at hwalk
    cases hwalk
    exact absurd rfl (ht _)
  · have hup : ofText ".." = Name.up := by decide
    rw [hup, walkLinks_up hopen, walkLinks_nil] at hwalk
    cases hwalk
    exact absurd rfl (ht _)

theorem Aims.readBytes_of_get? (h : d.Aims r P n) (hr : Followable r.bytes) (hopen : P ∉ d.closed)
    (hget : d.get? (P ++ [n]) = some (.file c)) : d.readBytes r = .ok c := by
  refine Disk.readBytes_eq_ok.mpr ⟨P ++ [n], ?_⟩
  rw [(h.points hr).resolve_true (by simp [hget]), lookup, if_neg hopen, hget]

theorem LeadsTo.writeFile_eq_ok (hP : d.LeadsTo (ofText a) P) (hs : IsSegment s)
    (hplain : d.Plain (P ++ [ofText s])) (hd : d.writeFile (join a s) c = .ok d') :
    d.writePlace (join a s) = .ok (P ++ [ofText s]) ∧ d' = d.fill (P ++ [ofText s]) c := by
  obtain ⟨p, hp, rfl⟩ := Disk.writeFile_eq_ok.mp hd
  obtain ⟨t, hres, ht⟩ : ∃ t, d.resolve true (join a s) = .ok t ∧ ∀ Q, t ≠ .present Q .directory := by
    rcases writePlace_eq_ok hp with ⟨c', hres⟩ | hres
    · exact ⟨_, hres, by simp⟩
    · exact ⟨_, hres, by simp⟩
  obtain rfl := (hP.aims_of_resolve hs hres ht).writePlace_eq hplain.link hp
  exact ⟨hp, rfl⟩

/-- What was at one name is moved to another one, where it can be read if the path still leads
there. -/
theorem LeadsTo.rename_eq_ok (hP : d.LeadsTo (ofText a) P) (hs : IsSegment s)
    (htarget : IsSegment target) (hne : s ≠ target) (halone : d.Alone (P ++ [ofText s]))
    (hget : d.get? (P ++ [ofText s]) = some (.file c))
    (hd : d.rename (join a s) (join a target) = .ok d') :
    d' = d.move (P ++ [ofText s]) (P ++ [ofText target]) (.file c) ∧
      (d'.LeadsTo (ofText a) P → d'.readBytes (join a target) = .ok c) := by
  obtain ⟨t, hres, hnotdir⟩ : ∃ t, d.resolve false (join a target) = .ok t ∧
      ∀ Q, t ≠ .present Q .directory := by
    obtain ⟨_, _, -, -, ⟨p, e', hres, he', -⟩ | ⟨p, hres, -⟩⟩ := Disk.rename_eq_ok hd
    · exact ⟨_, hres, by simp [he']⟩
    · exact ⟨_, hres, by simp⟩
  obtain ⟨u, hures, hunotdir⟩ : ∃ t, d.resolve false (join a s) = .ok t ∧
      ∀ Q, t ≠ .present Q .directory := by
    obtain ⟨q, e, hres, he, -⟩ := Disk.rename_eq_ok hd
    exact ⟨_, hres, by simp [he]⟩
  have haims := hP.aims_of_resolve htarget hres hnotdir
  obtain ⟨e, he, -, rfl⟩ := (hP.aims_of_resolve hs hures hunotdir).rename_eq_ok haims
    (fun heq => hne (Bytes.ofText_injective heq)) halone hd
  obtain rfl : e = .file c := Option.some.inj (he.symm.trans hget)
  exact ⟨rfl, fun hleads => (aims_join haims.proper hleads).readBytes_of_get?
    (followable_of_resolve hres)
    (fun hclosed => haims.opened hres ((changes_move (by simp) (by simp)).closed _ hclosed))
    ((get?_move (by simp) (by simp) _).trans (if_pos rfl))⟩

theorem SameDirectories.keeps (h : SameDirectories d d') (hc : Changes T d d')
    (hT : ∀ q, T q → d.Plain q) : d.Keeps d' where
  directory q := (h.directory q).2
  link q t hq := by
    by_cases hTq : T q
    · exact absurd hq ((hT q hTq).link t)
    · exact (hc.entry q hTq).trans hq
  closed := hc.closed

theorem Plain.of_changes (h : d.Plain p) (hc : Changes T d d') (hp : T p → d'.Plain p) :
    d'.Plain p := by
  by_cases hTp : T p
  · exact hp hTp
  · exact h.changes hc hTp

end Disk

theorem Download.sameHash_comm (a b : String) : sameHash a b = sameHash b a := by
  rw [sameHash, sameHash, decide_eq_decide]
  exact eq_comm

namespace Vendor

open AgentChain.Action Disk
open AgentChain.Path (IsSegment)

/-! ### Event logs -/

/-- The paths of event logs lead to places at which no link and no file that stands elsewhere too
is. -/
structure Logged (logs : List String) (places : List Place) (d : Disk) : Prop where
  aims : ∀ path ∈ logs, ∃ R n, R ++ [n] ∈ places ∧ d.Aims path R n
  plain : ∀ q ∈ places, d.Plain q

namespace Logged

variable {logs : List String} {places : List Place} {d d' : Disk} {T : Place → Prop} {w w' : World}

theorem mono (h : Logged logs places d) (hk : d.Keeps d') (hhome : d'.home = d.home)
    (hplain : ∀ q ∈ places, d'.Plain q) : Logged logs places d' where
  aims path hpath := by
    obtain ⟨R, n, hmem, hproper, b, hb, hR⟩ := h.aims path hpath
    exact ⟨R, n, hmem, hproper, b, hb, hR.mono hk hhome⟩
  plain := hplain

theorem of_changes (h : Logged logs places d) (hsame : SameDirectories d d') (hc : Changes T d d')
    (hT : ∀ q, T q → d.Plain q ∧ d'.Plain q) : Logged logs places d' :=
  h.mono (hsame.keeps hc fun q hq => (hT q hq).1) hc.home fun q hq =>
    (h.plain q hq).of_changes hc fun hTq => (hT q hTq).2

theorem reporting (h : Logged w.logs places w.disk) (hd : w.disk.Sound) (e : Event) :
    Logged w.logs places (w.reporting e).disk ∧
      Changes (· ∈ places) w.disk (w.reporting e).disk := by
  have hframe : Frame (Changes (· ∈ places)) := ⟨.refl _, .trans⟩
  refine (World.moves_reporting (hframe.keeping fun d => d.Sound ∧ Logged w.logs places d) w e
    (fun path hpath d d' hd ⟨hsound, h⟩ => ?_) ⟨hd, h⟩).imp_left And.right
  obtain ⟨R, n, hmem, haims⟩ := h.aims path hpath
  obtain ⟨p, c, hp, rfl⟩ := append_eq_ok hd
  have hplain := h.plain _ hmem
  obtain rfl := haims.writePlace_eq hplain.link hp
  have hsame := steady_fill (c := c) hp hsound
  have hc := changes_fill (c := c) (by simp) hplain.alone
  refine ⟨⟨hsame.sound, h.of_changes hsame hc ?_⟩, hc.mono fun q hq => hq ▸ hmem⟩
  rintro _ rfl
  exact ⟨hplain, hplain.fill (by simp)⟩

end Logged

/-! ### The directory of a pass -/

/-- The directory that a pass writes into: the path that leads to it, its place, the names that are
written there, and the event logs that are open, with their places. -/
structure Site where
  directory : String
  place : Place
  names : List String
  logs : List String
  logPlaces : List Place

namespace Site

variable (x : Site)

def spot (name : String) : Place :=
  x.place ++ [ofText name]

/-- Whether something is written at a place. -/
def writes (q : Place) : Bool :=
  x.logPlaces.contains q || x.names.any fun name => x.spot name = q

/-- A disk on which the path leads to the directory, and on which no link and no file that stands
elsewhere too is at the names in use. -/
structure Clear (d : Disk) : Prop where
  sound : d.Sound
  leads : d.LeadsTo (ofText x.directory) x.place
  plain : ∀ name ∈ x.names, d.Plain (x.spot name)

/-- A clear disk on which the event logs are elsewhere. -/
structure Ready (d : Disk) : Prop extends clear : x.Clear d where
  logged : Logged x.logs x.logPlaces d
  separate : ∀ name ∈ x.names, x.spot name ∉ x.logPlaces

/-- The places of a file and of the name by way of which it is written. -/
def Pair (temporary name : String) (q : Place) : Prop :=
  q = x.spot name ∨ q = x.spot temporary

variable {x} {d d' : Disk} {T : Place → Prop} {name other : String} {c : Bytes}

theorem spot_inj : x.spot name = x.spot other ↔ name = other := by
  constructor
  · intro h
    exact Bytes.ofText_injective (by simpa [spot] using h)
  · rintro rfl
    rfl

theorem writes_iff : x.writes q ↔ q ∈ x.logPlaces ∨ ∃ name ∈ x.names, x.spot name = q := by
  simp [writes]

theorem writes_spot (h : name ∈ x.names) : x.writes (x.spot name) :=
  writes_iff.mpr (.inr ⟨name, h, rfl⟩)

namespace Clear

theorem of_changes (h : x.Clear d) (hsame : SameDirectories d d') (hc : Changes T d d')
    (hT : ∀ q, T q → d.Plain q ∧ d'.Plain q) : x.Clear d' where
  sound := hsame.sound
  leads := h.leads.mono (hsame.keeps hc fun q hq => (hT q hq).1) hc.home
  plain name hname := (h.plain name hname).of_changes hc fun hq => (hT _ hq).2

theorem plain_of_pair (h : x.Clear d) (hname : name ∈ x.names) (hother : other ∈ x.names) (q : Place)
    (hq : x.Pair other name q) : d.Plain q := by
  rcases hq with rfl | rfl
  · exact h.plain name hname
  · exact h.plain other hother

theorem readBytes_of_changes (h : x.Clear d) (h' : x.Clear d') (hc : Changes T d d')
    (hname : name ∈ x.names) (hs : IsSegment name) (hT : ¬ T (x.spot name))
    (hread : d.readBytes (join x.directory name) = .ok c) :
    d'.readBytes (join x.directory name) = .ok c := by
  obtain ⟨p, hres⟩ := readBytes_eq_ok.mp hread
  have haims := h.leads.aims_of_resolve hs hres (by simp)
  have hget := haims.readBytes_eq_ok (h.plain name hname).link hread
  refine (aims_join haims.proper h'.leads).readBytes_of_get? (followable_of_resolve hres)
    (fun hclosed => haims.opened hres (hc.closed _ hclosed)) ?_
  exact (hc.entry _ hT).trans hget

end Clear

namespace Ready

theorem plain_of_writes (h : x.Ready d) (hq : x.writes q) : d.Plain q := by
  obtain hq | ⟨name, hname, rfl⟩ := writes_iff.mp hq
  · exact h.logged.plain q hq
  · exact h.plain name hname

theorem reporting {w : World} (h : x.Ready w.disk) (hlogs : w.logs = x.logs) (e : Event) :
    x.Ready (w.reporting e).disk ∧ Changes (· ∈ x.logPlaces) w.disk (w.reporting e).disk := by
  have hlogged := h.logged
  rw [← hlogs] at hlogged
  obtain ⟨hlogged', hc⟩ := hlogged.reporting h.sound e
  exact ⟨⟨h.clear.of_changes (World.steady_reporting w e h.sound) hc fun q hq =>
    ⟨hlogged.plain q hq, hlogged'.plain q hq⟩, hlogs ▸ hlogged', h.separate⟩, hc⟩

end Ready

end Site

/-! ### Files that are written by way of another name -/

section Replace

variable {x : Site} {d d' : Disk} {directory temporary name : String} {V : Place} {context : Context}
  {c : Bytes} {r : Except Failure Unit}

def replacing (source path : String) (context : Context) (c : Bytes) : Action Disk Unit := do
  OnDisk.writeFile source c
  (OnDisk.change (·.rename source path)).within context

theorem steady_replacing (source path : String) (context : Context) (c : Bytes) :
    Moves Steady (replacing source path context c) :=
  Steady.frame.bind (OnDisk.steady_writeFile _ _) fun _ => Frame.within (OnDisk.steady_rename _ _) _

/-- A disk on which a file can be written under a name of a directory by way of another name, at which
no link and no file that stands elsewhere too is. -/
structure Takes (directory : String) (V : Place) (temporary name : String) (d : Disk) : Prop where
  sound : d.Sound
  /-- The path leads to the directory, but not by way of a link under the name. -/
  leads : ∃ b : Disk, b.Keeps d ∧ d.home = b.home ∧ b.LeadsTo (ofText directory) V ∧
    ∀ t, b.get? (V ++ [ofText name]) ≠ some (.symlink t)
  plain : d.Plain (V ++ [ofText temporary])

/-- What comes of writing a file by way of another name. If nothing goes wrong, the file can be read and
the other name is free; otherwise nothing changes but what is at the other name. -/
structure Replaced (directory : String) (V : Place) (temporary name : String) (c : Bytes)
    (done : Prop) (d d' : Disk) : Prop where
  changes : Changes (fun q => q = V ++ [ofText name] ∨ q = V ++ [ofText temporary]) d d'
  kept : ¬done → Changes (· = V ++ [ofText temporary]) d d'
  plain : d'.Plain (V ++ [ofText temporary])
  plain_name : d.Plain (V ++ [ofText name]) → d'.Plain (V ++ [ofText name])
  free : done → d'.get? (V ++ [ofText temporary]) = none
  read : done → d'.readBytes (join directory name) = .ok c

theorem Takes.refl (h : Takes directory V temporary name d) (c : Bytes) :
    Replaced directory V temporary name c False d d :=
  ⟨.refl _ _, fun _ => .refl _ _, h.plain, id, False.elim, False.elim⟩

theorem Takes.replacing (h : Takes directory V temporary name d) (hs : IsSegment temporary)
    (ht : IsSegment name) (hne : temporary ≠ name)
    (hres : (Vendor.replacing (join directory temporary) (join directory name) context c).result d =
      (r, d')) :
    Replaced directory V temporary name c (r = .ok ()) d d' := by
  obtain ⟨b, hkeeps, hhome, hleads, hunlinked⟩ := h.leads
  have hsame := (steady_replacing _ _ _ _).of_result hres h.sound
  rw [Vendor.replacing, OnDisk.writeFile] at hres
  cases hwrite : d.writeFile (join directory temporary) c with
  | error f =>
    rw [result_bind_of_error (by
      rw [result_within, OnDisk.result_change_of_error hwrite]; rfl)] at hres
    cases hres
    simpa using h.refl c
  | ok d₁ =>
    rw [result_bind_of_ok (result_within_eq_ok.mpr (OnDisk.result_change_of_ok hwrite)),
      result_within] at hres
    have hd := hleads.mono hkeeps hhome
    obtain ⟨hp, rfl⟩ := hd.writeFile_eq_ok hs h.plain hwrite
    have hplaces : V ++ [ofText name] ≠ V ++ [ofText temporary] := fun heq =>
      hne (Bytes.ofText_injective (by simpa using heq.symm))
    have hc₁ := changes_fill (c := c) (by simp) h.plain.alone
    have hplain₁ := h.plain.fill (c := c) (by simp)
    cases hmove : (d.fill (V ++ [ofText temporary]) c).rename (join directory temporary)
        (join directory name) with
    | error f =>
      rw [OnDisk.result_change_of_error hmove] at hres
      cases hres
      exact ⟨hc₁.mono fun q hq => .inr hq, fun _ => hc₁, hplain₁, fun hname => hname.changes hc₁ hplaces,
        by simp [Except.mapError], by simp [Except.mapError]⟩
    | ok d₂ =>
      rw [OnDisk.result_change_of_ok hmove] at hres
      cases hres
      have hd₁ := hd.mono ((steady_fill hp h.sound).keeps hc₁ fun q hq => hq ▸ h.plain) hc₁.home
      obtain ⟨rfl, hread⟩ := hd₁.rename_eq_ok hs ht hne hplain₁.alone
        ((get?_fill_of_alone (by simp) h.plain.alone).trans (if_pos rfl)) hmove
      have hc := (hc₁.mono fun q hq => .inr hq).trans (changes_move (e := .file c)
        (p := V ++ [ofText name]) (q := V ++ [ofText temporary]) (by simp) (by simp))
      have hfree := (get?_move (d := d.fill (V ++ [ofText temporary]) c) (e := .file c)
        (p := V ++ [ofText name]) (q := V ++ [ofText temporary]) (by simp) (by simp) _).trans
        ((if_neg hplaces.symm).trans (if_pos rfl))
      refine ⟨hc, fun hr => absurd rfl hr, hsame.sound.plain_of_free hfree, fun _ => ⟨fun t => ?_,
        hplain₁.alone.move_self⟩, fun _ => hfree, fun _ => hread (hleads.mono
          ⟨fun q hq => (hsame.directory q).2 (hkeeps.directory q hq), fun q t hq => ?_,
            fun q hq => hkeeps.closed q (hc.closed q hq)⟩ (hc.home.trans hhome))⟩
      · rw [get?_move (by simp) (by simp), if_pos rfl]
        simp
      · -- the links on the way are not at the two names
        refine (hc.entry q ?_).trans (hkeeps.link q t hq)
        rintro (rfl | rfl)
        · exact hunlinked t hq
        · exact h.plain.link t (hkeeps.link _ t hq)

theorem Site.Clear.takes (h : x.Clear d) (htemporary : temporary ∈ x.names) (hname : name ∈ x.names) :
    Takes x.directory x.place temporary name d where
  sound := h.sound
  leads := ⟨d, ⟨fun _ hq => hq, fun _ _ hq => hq, fun _ hq => hq⟩, rfl, h.leads,
    (h.plain name hname).link⟩
  plain := h.plain temporary htemporary

theorem Site.Clear.of_replaced (h : x.Clear d) (htemporary : temporary ∈ x.names)
    (hname : name ∈ x.names) (hsame : SameDirectories d d')
    (hr : Replaced x.directory x.place temporary name c done d d') : x.Clear d' := by
  refine h.of_changes hsame hr.changes fun q hq => ⟨h.plain_of_pair hname htemporary q hq, ?_⟩
  rcases hq with rfl | rfl
  · exact hr.plain_name (h.plain name hname)
  · exact hr.plain

end Replace

/-! ### Rounds -/

variable {fetcher : Download.Fetcher S} {policy : Config.RetryPolicy} {catalog : Catalog}
  {base : String} {entry : Catalog.Entry} {s t : Session S} {v : Vendored} {rounds : List Round}
  {x : Site} {d d' : Disk} {T : Place → Prop} {file : FileEntry} {directory target : String} {V : Place}

/-- A file is in a directory with the size and the hash of its record, and the hash is the published
one, if there is one. -/
def Describes (d : Disk) (directory : String) (entry : Catalog.Entry) (file : FileEntry) : Prop :=
  ∃ contents, d.readBytes (join directory file.filename) = .ok contents ∧
    file.size = UInt64.ofNat contents.length ∧ file.sha256 = Sha256.hex contents ∧
    ∀ hash, entry.sha256 = some hash → Download.sameHash hash file.sha256 = true

theorem Describes.of_changes (hfile : Describes d x.directory entry file) (h : x.Clear d)
    (h' : x.Clear d') (hc : Changes T d d') (hname : file.filename ∈ x.names)
    (hs : IsSegment file.filename) (hT : ¬ T (x.spot file.filename)) :
    Describes d' x.directory entry file := by
  obtain ⟨contents, hread, hrest⟩ := hfile
  exact ⟨contents, h.readBytes_of_changes h' hc hname hs hT hread, hrest⟩

def partName (fileName : String) : String :=
  fileName ++ ".part"

theorem partName_ne (fileName : String) : partName fileName ≠ fileName := by
  intro h
  simpa [partName] using congrArg String.length h

/-- The names of a package are among those that are written. -/
structure Site.Covers (x : Site) (entry : Catalog.Entry) : Prop where
  segment : IsSegment entry.fileName
  name_mem : entry.fileName ∈ x.names
  partName_mem : partName entry.fileName ∈ x.names

/-- The places that the round of a package changes. -/
abbrev Site.Touches (x : Site) (entry : Catalog.Entry) : Place → Prop :=
  x.Pair (partName entry.fileName) entry.fileName

theorem steady_vendorOne (h : (vendorOne fetcher policy base target entry).result s = (.ok v, t)) :
    Steady s.world.disk t.world.disk := by
  obtain ⟨_, -, -, rfl⟩ | ⟨_, _, -, -, -, rfl⟩ | ⟨_, _, _, _, -, -, hstore, rfl, -⟩ :=
    vendorOne_cases h
  · exact Steady.frame.refl _
  · exact Steady.frame.refl _
  · exact (steady_replacing _ _ _ _).of_result hstore

/-- What is in the vendor directory after the round of a package: its file if it is there, and
otherwise what was there before but for the temporary file. -/
theorem Takes.vendorOne
    (h : Takes directory V (partName entry.fileName) entry.fileName s.world.disk)
    (hs : IsSegment entry.fileName)
    (hround : (vendorOne fetcher policy base (join directory entry.fileName) entry).result s =
      (.ok v, t)) :
    (∀ file, v.file? = some file → Describes t.world.disk directory entry file) ∧
      (v.file? = none →
        Changes (· = V ++ [ofText (partName entry.fileName)]) s.world.disk t.world.disk) ∧
      t.world.logs = s.world.logs ∧ ∃ c done, Replaced directory V (partName entry.fileName)
        entry.fileName c done s.world.disk t.world.disk := by
  obtain ⟨file, hfile, rfl, rfl⟩ | ⟨f, state, -, -, rfl, rfl⟩ |
      ⟨body, state, r, disk, -, hfetch, hstored, rfl, hr⟩ := vendorOne_cases hround
  · refine ⟨?_, fun _ => .refl _ _, rfl, [], False, h.refl _⟩
    rintro _ ⟨⟩
    obtain ⟨contents, hread, -, hhash, rfl⟩ := reusable_eq_some hfile
    refine ⟨contents, hread, rfl, rfl, fun hash hsome => ?_⟩
    rwa [hsome, Option.all_some] at hhash
  · exact ⟨by simp [Vendored.file?], fun _ => .refl _ _, rfl, [], False, h.refl _⟩
  · rw [store, hs.join_append (by decide)] at hstored
    have hreplaced := h.replacing (hs.append (by decide)) hs (partName_ne _) hstored
    obtain ⟨rfl, rfl⟩ | ⟨f, rfl, rfl⟩ := hr
    · refine ⟨?_, by simp [Vendored.file?], rfl, _, _, hreplaced⟩
      rintro _ ⟨⟩
      refine ⟨body, hreplaced.read rfl, rfl, rfl, fun hash hsome => ?_⟩
      rw [hsome] at hfetch
      rw [Download.sameHash_comm]
      exact sameHash_of_fetch hfetch
    · exact ⟨by simp [Vendored.file?], fun _ => hreplaced.kept (by simp), rfl, _, _, hreplaced⟩

theorem Site.Clear.vendorOne (h : x.Clear s.world.disk) (hx : x.Covers entry)
    (hround : (vendorOne fetcher policy base (join x.directory entry.fileName) entry).result s =
      (.ok v, t)) :
    x.Clear t.world.disk ∧ t.world.logs = s.world.logs ∧
      Changes (x.Touches entry) s.world.disk t.world.disk ∧
      ∀ file, v.file? = some file → Describes t.world.disk x.directory entry file := by
  obtain ⟨hfile, -, hlogs, c, done, hreplaced⟩ :=
    (h.takes hx.partName_mem hx.name_mem).vendorOne hx.segment hround
  exact ⟨h.of_replaced hx.partName_mem hx.name_mem (steady_vendorOne hround h.sound) hreplaced, hlogs,
    hreplaced.changes, hfile⟩

/-- Nothing that is written for a package has a given name. -/
def Spares (entry : Catalog.Entry) (fileName : String) : Prop :=
  fileName ≠ entry.fileName ∧ fileName ≠ partName entry.fileName

theorem Rounds.steady (h : Rounds fetcher policy catalog base directory s rounds t) :
    Steady s.world.disk t.world.disk := by
  induction h with
  | nil s => exact Steady.frame.refl _
  | cons _ hround _ ih =>
    exact Steady.frame.trans (steady_vendorOne hround)
      (Steady.frame.trans (World.steady_reporting _ _) ih)

/-- What the rounds of a pass leave: the file of a package is there as it is recorded unless a later
round writes under its name or it is an event log. -/
theorem Rounds.leaves (h : Rounds fetcher policy catalog base x.directory s rounds t)
    (hclear : x.Clear s.world.disk) (hlogged : Logged s.world.logs x.logPlaces s.world.disk)
    (hcovers : ∀ r ∈ rounds, x.Covers r.entry) (hsorted : (rounds.map (·.name)).Pairwise (· < ·)) :
    x.Clear t.world.disk ∧ t.world.logs = s.world.logs ∧
      Logged t.world.logs x.logPlaces t.world.disk ∧
      Changes (fun q => q ∈ x.logPlaces ∨ ∃ r ∈ rounds, x.Touches r.entry q) s.world.disk
        t.world.disk ∧
      ∀ r ∈ rounds, x.spot r.entry.fileName ∉ x.logPlaces →
        (∀ r' ∈ rounds, r.name < r'.name → Spares r'.entry r.entry.fileName) →
        ∀ file, r.vendored.file? = some file → Describes t.world.disk x.directory r.entry file := by
  induction h with
  | nil s => exact ⟨hclear, rfl, hlogged, .refl _ _, by simp⟩
  | @cons s t u r rest _ hround _ ih =>
    obtain ⟨hr, hrest⟩ := List.forall_mem_cons.mp hcovers
    obtain ⟨hlater, hsorted'⟩ := List.pairwise_cons.mp hsorted
    obtain ⟨h₁, hlogs₁, hc₁, hfile⟩ := hclear.vendorOne hr hround
    have hlogged₁ : Logged t.world.logs x.logPlaces t.world.disk := by
      rw [hlogs₁]
      exact hlogged.of_changes (steady_vendorOne hround hclear.sound) hc₁ fun q hq =>
        ⟨hclear.plain_of_pair hr.name_mem hr.partName_mem q hq,
          h₁.plain_of_pair hr.name_mem hr.partName_mem q hq⟩
    obtain ⟨hlogged₂, hc₂⟩ := hlogged₁.reporting h₁.sound (vendoredEvent r.name r.entry r.vendored)
    have h₂ := h₁.of_changes (World.steady_reporting _ _ h₁.sound) hc₂ fun q hq =>
      ⟨hlogged₁.plain q hq, hlogged₂.plain q hq⟩
    obtain ⟨h₃, hlogs₃, hlogged₃, hc₃, hfiles⟩ := ih h₂ hlogged₂ hrest hsorted'
    refine ⟨h₃, hlogs₃.trans hlogs₁, hlogged₃, ?_, ?_⟩
    · refine (hc₁.mono fun q hq => .inr ⟨r, List.mem_cons_self, hq⟩).trans
        ((hc₂.mono fun q hq => .inl hq).trans (hc₃.mono fun q hq => hq.imp_right ?_))
      rintro ⟨r', hr', hq'⟩
      exact ⟨r', List.mem_cons_of_mem _ hr', hq'⟩
    intro r' hr' hunlogged hspares file hsome
    obtain rfl | hr' := List.mem_cons.mp hr'
    · have hname := filename_of_vendorOne hround hsome
      rw [← hname] at hunlogged
      have hmem : file.filename ∈ x.names := hname ▸ hr.name_mem
      have hsegment : IsSegment file.filename := hname ▸ hr.segment
      refine ((hfile file hsome).of_changes h₁ h₂ hc₂ hmem hsegment hunlogged).of_changes h₂ h₃ hc₃
        hmem hsegment ?_
      rintro (hlogged | ⟨r'', hr'', htouch⟩)
      · exact hunlogged hlogged
      · have hapart := hspares r'' (List.mem_cons_of_mem _ hr'')
          (hlater _ (List.mem_map_of_mem hr''))
        rw [hname] at htouch
        rcases htouch with htouch | htouch
        · exact hapart.1 (Site.spot_inj.mp htouch)
        · exact hapart.2 (Site.spot_inj.mp htouch)
    · exact hfiles r' hr' hunlogged (fun r'' hr'' => hspares r'' (List.mem_cons_of_mem _ hr'')) file
        hsome

/-! ### The manifest -/

/-- The name by way of which the manifest is written. -/
abbrev manifestPart : String :=
  fileName ++ ".tmp"

/-- The names of the manifest, with the one by way of which it is written. -/
def manifestNames : List String :=
  [fileName, manifestPart]

theorem temporary_manifest (directory : String) :
    Storage.temporary (join directory fileName) = join directory manifestPart :=
  Path.withExtension_join (by decide) (by decide)

abbrev Site.storing (x : Site) (m : VendorManifest) : Action Disk Unit :=
  VendorManifest.store (join x.directory VendorManifest.fileName) m

section

variable (hx : manifestNames ⊆ x.names)
  (hres : (x.storing m).result d = (r, d'))
include hx hres

theorem Site.Clear.storeManifest (h : x.Clear d) : x.Clear d' ∧ SameDirectories d d' ∧
    Changes (x.Pair manifestPart fileName) d d' ∧
    (∀ q, x.Pair manifestPart fileName q → d.Plain q ∧ d'.Plain q) ∧
    (r = .ok () → d'.get? (x.spot manifestPart) = none) := by
  have hname : Path.IsName fileName := by decide
  have hpart : Path.IsName manifestPart := by decide
  have hname_mem : fileName ∈ x.names := hx (by simp [manifestNames])
  have hpart_mem : manifestPart ∈ x.names := hx (by simp [manifestNames])
  have hpair {D : Disk} (hD : x.Clear D) := hD.plain_of_pair hname_mem hpart_mem
  rw [storing, VendorManifest.store, Storage.writeDocument, ← Storage.temporary,
    temporary_manifest] at hres
  have hparent := OnDisk.result_createParent_of_leadsTo hname h.leads
  rcases hmade : (OnDisk.createParent (join x.directory VendorManifest.fileName)).result d with
    ⟨f | ⟨⟩, d₁⟩
  · rw [result_bind_of_error hmade] at hres
    cases hres
    rw [hmade] at hparent
    cases hparent
    exact ⟨h, Steady.frame.refl _ h.sound, .refl _ _, fun q hq => ⟨hpair h q hq, hpair h q hq⟩, by simp⟩
  · rw [result_bind_of_ok hmade] at hres
    rw [hmade] at hparent
    cases hparent
    have hreplaced := (h.takes hpart_mem hname_mem).replacing hpart.isSegment hname.isSegment (by decide)
      hres
    have hsame := (steady_replacing _ _ _ _).of_result hres h.sound
    have h' := h.of_replaced hpart_mem hname_mem hsame hreplaced
    exact ⟨h', hsame, hreplaced.changes, fun q hq => ⟨hpair h q hq, hpair h' q hq⟩, hreplaced.free⟩

theorem Site.Ready.storeManifest (h : x.Ready d) : x.Ready d' ∧ SameDirectories d d' ∧
    Changes (x.Pair manifestPart fileName) d d' ∧
    (r = .ok () → d'.get? (x.spot manifestPart) = none) := by
  obtain ⟨hclear, hsame, hc, hplain, hfree⟩ := h.clear.storeManifest hx hres
  exact ⟨⟨hclear, h.logged.of_changes hsame hc hplain, h.separate⟩, hsame, hc, hfree⟩

end

end Vendor

end AgentChain
