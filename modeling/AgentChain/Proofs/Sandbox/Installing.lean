import AgentChain.Proofs.Archive.TarContainment
import AgentChain.Proofs.Archive.ZipContainment
import AgentChain.Proofs.Sandbox.Native

/-!
# Installing packages stays inside a native sandbox

Package files are unpacked into the library of a sandbox one after the other. Whatever they hold and
whether they can be unpacked or not, nothing outside the directory of the sandbox changes, as long as
no zip archive is unpacked while a link stands in the library: through a link that an earlier tar
archive has brought, its entries may leave the sandbox.
-/

namespace AgentChain.Sandbox.Native

open AgentChain.Action Disk
open Bytes (ofText)
open AgentChain.Path (IsName)

variable {root : String} {S : Place} {d d' : Disk} {q : Place} {archive : String}

/-- The place of the library in the directory of a sandbox. -/
def libraryAt (S : Place) : Place :=
  S ++ [ofText "lib"] ++ [ofText "site-packages"]

def libraryIn (root : String) : String :=
  Path.join (Path.join root "lib") "site-packages"

theorem isName_lib : IsName "lib" := by decide

theorem isName_sitePackages : IsName "site-packages" := by decide

theorem proper_lib : Name.Proper (ofText "lib") := by decide

theorem proper_sitePackages : Name.Proper (ofText "site-packages") := by decide

theorem hostPath_libraryRoot : hostPath root libraryRoot = .ok (libraryIn root) := by
  have hnames : Names ["lib", "site-packages"] libraryRoot := ⟨by simp, by decide, by decide⟩
  exact hostPath_eq hnames

theorem inside_of_inside_library (h : inside (libraryAt S) q) : inside S q := by
  obtain ⟨names, -, rfl⟩ := inside_iff.1 h
  rw [libraryAt, List.append_assoc, List.append_assoc]
  exact inside_append (by simp)

theorem inside_libraryAt : inside S (libraryAt S) := by
  rw [libraryAt, List.append_assoc]
  exact inside_append (by simp)

theorem not_inside_libraryAt : inside (libraryAt S) (libraryAt S) = false :=
  Bool.eq_false_iff.2 inside_self

theorem not_inside_lib : inside (libraryAt S) (S ++ [ofText "lib"]) = false := by
  rw [← Bool.not_eq_true, inside_iff]
  rintro ⟨names, -, hq⟩
  simpa [libraryAt] using congrArg List.length hq

/-- The places of the library and of the directory that it is in. -/
def OnTheWay (S q : Place) : Prop :=
  q = S ++ [ofText "lib"] ∨ q = libraryAt S

theorem OnTheWay.inside (h : OnTheWay S q) : inside S q := by
  rcases h with rfl | rfl
  · exact inside_append (by simp)
  · exact inside_libraryAt

theorem OnTheWay.not_inside (h : OnTheWay S q) : Disk.inside (libraryAt S) q = false := by
  rcases h with rfl | rfl
  · exact not_inside_lib
  · exact not_inside_libraryAt

/-- A path leads to a directory in which no link is in the way of the library. Files in the library
stand nowhere else, and only directories in it are closed. -/
structure Housed (root : String) (S : Place) (d : Disk) : Prop where
  sound : d.Sound
  leads : (d.without (inside S)).LeadsTo (ofText root) S
  home : inside S d.home = false
  library : ∀ q, OnTheWay S q → ∀ t, d.get? q ≠ some (.symlink t)
  twins : ∀ p q c, inside (libraryAt S) p = true → d.get? p = some (.file c) →
    d.areTwins p q = true → inside (libraryAt S) q = true
  closed : ∀ q ∈ d.closed, inside (libraryAt S) q = true → d.get? q = some .directory

theorem housed_of_bare (hd : d.Sound) (hhome : d.get? d.home ≠ none)
    (hleads : d.LeadsTo (ofText root) S) (hbare : Bare S d) : Housed root S d where
  sound := hd
  leads := hleads.mono ⟨fun _ => hbare.get?_without, fun _ _ => hbare.get?_without,
    fun _ hq => (List.mem_filter.1 hq).1⟩ rfl
  home := by
    rw [← Bool.not_eq_true]
    exact fun hin => hhome (hbare _ hin)
  library q hq t := by
    rw [hbare q hq.inside]
    simp
  twins p q c hp hfile := by
    rw [hbare p (inside_of_inside_library hp)] at hfile
    cases hfile
  closed q hq hin := absurd (hbare q (inside_of_inside_library hin)) (hd.closed q hq)

namespace Housed

variable (h : Housed root S d)
include h

theorem leadsTo : d.LeadsTo (ofText root) S :=
  (Spares.refl _ d).leadsTo h.leads h.home

/-- A change below the directory keeps it as it should be if what is there now is as it should be. -/
theorem of_spares (hd' : d'.Sound) (hs : Spares (inside S ·) d d')
    (hlibrary : ∀ q, OnTheWay S q → ∀ t, d'.get? q ≠ some (.symlink t))
    (htwins : ∀ p q c, inside (libraryAt S) p → d'.get? p = some (.file c) →
      d'.areTwins p q → inside (libraryAt S) q)
    (hclosed : ∀ q ∈ d'.closed, inside (libraryAt S) q → d'.get? q = some .directory) :
    Housed root S d' where
  sound := hd'
  leads := (hs.trans (spares_without fun _ hq => hq)).leadsTo h.leads h.home
  home := by rw [hs.home, h.home]
  library := hlibrary
  twins := htwins
  closed := hclosed

theorem createDirectories : Housed root S (d.createDirectories (libraryIn root)).2 ∧
    Spares (inside S ·) d (d.createDirectories (libraryIn root)).2 ∧
    ∀ q, inside (libraryAt S) q → (d.createDirectories (libraryIn root)).2.get? q = d.get? q := by
  have hc := changes_createDirectories_join_join isName_lib proper_lib isName_sitePackages
    proper_sitePackages h.leadsTo (h.library _ (.inl rfl))
  obtain ⟨hd', hfurn⟩ := h.sound.furnished_createDirectories (libraryIn root)
  have htwins := twins_createDirectories (d := d) (libraryIn root)
  change Changes (OnTheWay S) d (d.createDirectories (libraryIn root)).2 at hc
  generalize (d.createDirectories (libraryIn root)).2 = d' at hc hd' hfurn htwins
  have hs : Spares (inside S ·) d d' := hc.spares.mono fun _ => OnTheWay.inside
  have hsame : ∀ q, inside (libraryAt S) q → d'.get? q = d.get? q := by
    refine fun q hq => hc.entry q fun hway => ?_
    simp [hway.not_inside] at hq
  refine ⟨h.of_spares hd' hs (fun q hq t => ?_) (fun p q c hp hfile hpq => ?_)
    fun q hq hin => ?_, hs, hsame⟩
  · rcases hfurn.entry q with hold | ⟨-, hdir⟩
    · rw [hold]
      exact h.library q hq t
    · simp [hdir]
  · rw [hsame p hp] at hfile
    rw [areTwins, htwins] at hpq
    exact h.twins p q c hp hfile hpq
  · rw [hsame q hin]
    exact h.closed q (hc.closed q hq) hin

theorem enclosure (hQ : d.LeadsTo (ofText (libraryIn root)) Q)
    (hfollow : Followable (ofText (libraryIn root))) :
    Enclosure (libraryIn root) (libraryAt S) d := by
  have hbytes : ofText (libraryIn root) =
      Name.below (ofText (Path.join root "lib")) (ofText "site-packages") :=
    isName_sitePackages.ofText_join
  obtain ⟨mid, M, hM, -⟩ := (hbytes ▸ hQ).exists_before proper_sitePackages.ne_nil
    proper_sitePackages.no_slash
  obtain ⟨rfl, hlib, hopen⟩ := h.leadsTo.of_join isName_lib proper_lib (h.library _ (.inl rfl)) hM
  obtain ⟨rfl, hdir, hopen'⟩ := hM.of_join isName_sitePackages proper_sitePackages
    (h.library _ (.inr rfl)) hQ
  have hkept : ∀ q, inside (libraryAt S) q = false → d.get? q = some .directory →
      (d.without (inside (libraryAt S))).get? q = some .directory := by
    intro q hq hdir
    rw [get?_without, if_neg (by simp [hq]), hdir]
  have hstill : ∀ q, q ∉ d.closed → q ∉ (d.without (inside (libraryAt S))).closed :=
    fun q hq hclosed => hq (List.mem_filter.1 hclosed).1
  have hroot : (d.without (inside (libraryAt S))).LeadsTo (ofText root) S :=
    (spares_without fun _ => inside_of_inside_library).leadsTo h.leads h.home
  refine ⟨h.sound, ?_, hfollow, ?_, hdir, ?_, h.twins, h.closed⟩
  · rw [hbytes, isName_lib.ofText_join]
    exact (hroot.below proper_lib (hstill S hopen) (hkept _ not_inside_lib hlib)).below
      proper_sitePackages (hstill _ hopen') (hkept _ not_inside_libraryAt hdir)
  · rw [hbytes]
    exact Name.below_ne_nil proper_sitePackages.ne_nil
  · have hoff := h.home
    rw [← Bool.not_eq_true] at hoff ⊢
    exact fun hin => hoff (inside_of_inside_library hin)

theorem enclosure_of_createDirectories
    (hmade : d.createDirectories (libraryIn root) = (.ok (), d')) :
    Enclosure (libraryIn root) (libraryAt S) d' := by
  have h' : Housed root S d' := by
    have := h.createDirectories.1
    rwa [hmade] at this
  have hbytes : (libraryIn root : Route).bytes =
      Name.below (ofText (Path.join root "lib")) (ofText "site-packages") :=
    isName_sitePackages.ofText_join
  rcases createDirectories_eq_ok (isEmpty_join isName_sitePackages) h.sound hmade with
    hdir | ⟨d₀, hd₀, hfurn, hmake⟩
  · obtain ⟨p, hres⟩ := exists_resolve_of_isDirectory hdir
    exact h'.enclosure (leadsTo_of_resolve hres) (followable_of_resolve hres)
  · obtain ⟨p, s, hres, -⟩ := createDirectory_eq_ok hmake
    obtain ⟨left, M, hM, -⟩ := exists_leadsTo hbytes proper_sitePackages.ne_nil
      proper_sitePackages.no_slash hres
    have haims := aims_join (a := Path.join root "lib") proper_sitePackages hM
    obtain ⟨hfree, rfl⟩ := haims.createDirectory_eq_ok hmake
    have hne : M ++ [ofText "site-packages"] ≠ [] := by simp
    refine h'.enclosure (Q := M ++ [ofText "site-packages"]) ?_ (followable_of_resolve hres)
    rw [show ofText (libraryIn root) = _ from hbytes]
    exact (hM.mono (keeps_put hne hfree) rfl).below proper_sitePackages (haims.opened hres)
      (by rw [get?_put hne, if_pos rfl])

theorem of_kept (hkept : Kept (libraryIn root) (libraryAt S) d d') :
    Housed root S d' ∧ Spares (inside S ·) d d' := by
  have hs : Spares (inside S ·) d d' := hkept.spares.mono fun _ => inside_of_inside_library
  refine ⟨h.of_spares hkept.enclosure.sound hs (fun q hq t => ?_) hkept.enclosure.twins
    hkept.enclosure.closed, hs⟩
  rw [hkept.spares.entry q (by simp [hq.not_inside])]
  exact h.library q hq t

end Housed

/-- A sandbox stays as it should be, and nothing outside of it changes. -/
def Houses (root : String) (S : Place) (d d' : Disk) : Prop :=
  Housed root S d → Housed root S d' ∧ Spares (inside S · = true) d d'

theorem Houses.frame (root : String) (S : Place) : Frame (Houses root S) where
  refl d h := ⟨h, .refl _ d⟩
  trans h h' hd := by
    obtain ⟨hd', hs⟩ := h hd
    obtain ⟨hd'', hs'⟩ := h' hd'
    exact ⟨hd'', hs.trans hs'⟩

theorem houses_unpacking {rest : Opened → Action Disk Unit}
    (hrest : ∀ opened d', Enclosure (libraryIn root) (libraryAt S) d' →
      (∀ q, inside (libraryAt S) q → d'.get? q = d.get? q) →
      Kept (libraryIn root) (libraryAt S) d' ((rest opened).result d').2) :
    Houses root S d ((do
      let opened ← (OnDisk.read (·.openFile archive)).within context
      OnDisk.createDirectories (libraryIn root)
      rest opened).result d).2 := by
  have hframe := Houses.frame root S
  refine hframe.bind_at (Frame.within (OnDisk.moves_read hframe _) _ d) fun opened d₁ hopened => ?_
  obtain ⟨-, rfl⟩ := OnDisk.result_read_eq_ok.1 (result_within_eq_ok.1 hopened)
  intro h
  obtain ⟨h', hs, hsame⟩ := h.createDirectories
  rw [result_bind, OnDisk.result_createDirectories]
  rcases hmade : d₁.createDirectories (libraryIn root) with ⟨f | u, d₂⟩
  · rw [hmade] at h' hs
    exact ⟨h', hs⟩
  · have henclosure := h.enclosure_of_createDirectories hmade
    rw [hmade] at h' hs hsame
    obtain ⟨h'', hs'⟩ := h'.of_kept (hrest opened d₂ henclosure hsame)
    exact ⟨h'', hs.trans hs'⟩

theorem houses_unpackWheel (hlinkless : Linkless (libraryAt S) d) :
    Houses root S d ((Archive.unpackWheel archive (libraryIn root)).result d).2 := by
  refine houses_unpacking fun opened d' henclosure hsame => ?_
  have hlinkless' : Linkless (libraryAt S) d' := fun q t hq => hsame q hq ▸ hlinkless q t hq
  obtain ⟨⟨henclosure', hs⟩, -⟩ := Archive.moves_unpackContents archive opened.read d' henclosure
    hlinkless'
  exact ⟨henclosure', hs⟩

theorem houses_unpack : Houses root S d ((Archive.unpack archive (libraryIn root)).result d).2 := by
  refine houses_unpacking fun opened d' henclosure _ => ?_
  have hkept : Kept (libraryIn root) (libraryAt S) d' d' := ⟨henclosure, .refl _ d'⟩
  refine Ensures.result ((Archive.ensures_unpackMembers _ _).bind fun _ => ?_) hkept
  split
  · exact .fail fun _ h => h
  · exact .pure fun _ h => h

/-- Whether a package file is a zip archive by its name. -/
def isZip (archive : String) : Bool :=
  let name := (Path.fileName? archive).getD ""
  Archive.hasEnding name ".whl" || Archive.hasEnding name ".zip"

/-- Unpacking a package file stays inside the sandbox, if a zip archive finds no link in the library.
-/
theorem houses_unpackPackage (hzip : isZip archive → Linkless (libraryAt S) d) :
    Houses root S d ((Archive.unpackPackage archive (libraryIn root)).result d).2 := by
  rw [Archive.unpackPackage]
  split
  · next hname => exact houses_unpackWheel (hzip hname)
  split
  · exact houses_unpack
  · exact (Houses.frame root S).fail _ d

/-! ### Calls -/

/-- A call that installs a package from a file. -/
inductive Call where
  | unpack (package archive : String)
  | install (package archive : String)

namespace Call

def action : Call → Action (Disk × Native) Unit
  | unpack package archive => unpackIntoLibrary package archive
  | install package archive => installPackage package archive

def opensZip (s : Disk × Native) : Call → Bool
  | unpack _ archive => isZip archive
  | install _ archive => hasInstaller s && isZip archive

end Call

/-- What comes of calls that are made one after the other, whether they succeed or not. -/
def after (s : Disk × Native) : List Call → Disk × Native
  | [] => s
  | call :: rest => after (call.action.result s).2 rest

/-- Whenever a zip archive is unpacked, no link stands in the library. -/
def Unlinked (S : Place) (s : Disk × Native) : List Call → Prop
  | [] => True
  | call :: rest => (call.opensZip s = true → Linkless (libraryAt S) s.1) ∧
      Unlinked S (call.action.result s).2 rest

variable {s : Disk × Native}

theorem result_unpackIntoLibrary (package archive : String) :
    ((unpackIntoLibrary package archive).result s).2.1 =
        ((Archive.unpackPackage archive (libraryIn s.2.root)).result s.1).2 ∧
      ((unpackIntoLibrary package archive).result s).2.2.root = s.2.root := by
  rw [unpackIntoLibrary, result_bind, atPath, result_ofResult, hostPath_libraryRoot]
  simp only [result_within]
  rcases (Archive.unpackPackage archive (libraryIn s.2.root)).result s.1 with ⟨f | u, d'⟩
  · exact ⟨rfl, rfl⟩
  · exact ⟨rfl, rfl⟩

theorem Call.houses (call : Call) (hroot : s.2.root = root)
    (hzip : call.opensZip s → Linkless (libraryAt S) s.1) :
    Houses root S s.1 (call.action.result s).2.1 ∧ (call.action.result s).2.2.root = root := by
  subst hroot
  cases call with
  | unpack package archive =>
    obtain ⟨hdisk, hroot⟩ := result_unpackIntoLibrary (s := s) package archive
    rw [Call.action, hdisk, hroot]
    exact ⟨houses_unpackPackage hzip, rfl⟩
  | install package archive =>
    rw [Call.action, installPackage, result_ofResult]
    split
    · next hinstaller =>
      obtain ⟨hdisk, hroot⟩ := result_unpackIntoLibrary (s := s) package archive
      rw [hdisk, hroot]
      exact ⟨houses_unpackPackage fun hname => hzip (by simp [opensZip, hinstaller, hname]), rfl⟩
    · exact ⟨(Houses.frame _ S).refl _, rfl⟩

theorem houses_after (calls : List Call) (hroot : s.2.root = root) (h : Unlinked S s calls) :
    Houses root S s.1 (after s calls).1 := by
  induction calls generalizing s with
  | nil => exact (Houses.frame root S).refl _
  | cons call rest ih =>
    obtain ⟨hstep, hroot'⟩ := call.houses hroot h.1
    exact (Houses.frame root S).trans hstep (ih hroot' h.2)

/-- Packages are installed in a sandbox whose directory is empty at first. Whatever the package files
hold and whether the calls succeed or not, everything outside the directory stays as it is, if no zip
archive is unpacked while a link stands in the library. -/
theorem spares_after {S : Place} {s : Disk × Native} (calls : List Call) (hd : s.1.Sound)
    (hhome : s.1.get? s.1.home ≠ none)
    (hroot : s.1.LeadsTo (ofText s.2.root) S) (hempty : Bare S s.1)
    (hlinks : Unlinked S s calls) : Spares (inside S · = true) s.1 (after s calls).1 :=
  (houses_after calls rfl hlinks (housed_of_bare hd hhome hroot hempty)).2

/-- A zip archive that holds `A` under the name `a.py`. -/
def wheel : Bytes :=
  [80, 75, 3, 4, 20, 0, 0, 0, 0, 0, 0, 0, 33, 0, 139, 158, 217, 211, 1, 0, 0, 0, 1, 0, 0, 0, 4, 0, 0, 0] ++
    ofText "a.py" ++ [65] ++
    [80, 75, 1, 2, 20, 0, 20, 0, 0, 0, 0, 0, 0, 0, 33, 0, 139, 158, 217, 211, 1, 0, 0, 0, 1, 0, 0, 0,
      4, 0, 0, 0, 0, 0, 0, 0, 0, 0, 0, 0, 0, 0, 0, 0, 0, 0] ++ ofText "a.py" ++
    [80, 75, 5, 6, 0, 0, 0, 0, 1, 0, 1, 0, 50, 0, 0, 0, 35, 0, 0, 0, 0, 0]

/-- A tar archive with an empty file of the name `b.py`. -/
def tarball : Bytes :=
  Gzip.stored ((Tar.writeMember? "b.py" []).getD [])

/-- A disk with an empty directory, a file beside it and two package files. -/
def depot : Disk where
  entries := [([ofText "box"], .directory), ([ofText "keep"], .file [1]),
    ([ofText "p.whl"], .file wheel), ([ofText "q.tar.gz"], .file tarball)]
  home := []

def newBox : Native where
  root := "/box"
  modules := .empty
  installer := "p"
  installed := []
  host := none

/-- The installer is unpacked, and it unpacks a tar archive after that. -/
def depotCalls : List Call :=
  [.unpack "p" "/p.whl", .install "q" "/q.tar.gz"]

set_option maxRecDepth 100000 in
theorem spares_after_depot :
    depot.Sound ∧ depot.LeadsTo (ofText "/box") [ofText "box"] ∧
      ["a.py", "b.py"].map (fun name => (after (depot, newBox) depotCalls).1.get?
        (libraryAt [ofText "box"] ++ [ofText name])) = [some (.file [65]), some (.file [])] ∧
      (after (depot, newBox) depotCalls).1.get? [ofText "keep"] = some (.file [1]) := by
  have hsound : depot.Sound := Disk.sound_of_fits (by decide +kernel)
  have hleads : depot.LeadsTo (ofText "/box") [ofText "box"] :=
    leadsTo_of_resolve (r := "/box") (by rfl)
  have hempty : Bare [ofText "box"] depot := by
    intro q hq
    obtain ⟨names, hne, rfl⟩ := inside_iff.1 hq
    rw [get?_of_ne_nil (by simp), Option.map_eq_none_iff, List.find?_eq_none]
    simp [depot, hne]
  have htar : isZip "/q.tar.gz" = false := by decide +kernel
  have hlinks : Unlinked [ofText "box"] (depot, newBox) depotCalls := by
    refine ⟨fun _ q t hq => ?_, fun hzip => ?_, trivial⟩
    · simp [hempty q (inside_of_inside_library hq)]
    · simp [Call.opensZip, htar] at hzip
  refine ⟨hsound, hleads, by decide +kernel, ?_⟩
  rw [(spares_after _ hsound (by decide) hleads hempty hlinks).entry _ (by decide)]
  rfl

end AgentChain.Sandbox.Native
