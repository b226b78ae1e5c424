import AgentChain.Proofs.Archive.Extract
import AgentChain.Proofs.Manifest
import AgentChain.Proofs.Run
import AgentChain.Proofs.Sandbox.Native
import AgentChain.Proofs.Stage.Entering

/-!
# The code that agents see

When the installation of the packages begins, the files below the directory of the code in a sandbox
are the files that the verified manifest of the code lists, with the contents that it records. A
native sandbox also has the file in which the host describes itself, in place of a listed file of
that name. Nothing else in the sandbox has changed.

A native sandbox keeps its files below a directory of the host, and this directory is empty before
the code is brought in. The event logs that are open then exist already, so they are not below it.
-/

namespace AgentChain.Run

open AgentChain.Action Disk
open Bytes (ofText)
open Sandbox (inApp)
open Verify (Verified tree Authentic result_tree)
open Artifact (code deps)

variable {S : Type} {box : Sandbox S} {root dist : String} {config : Config} {paths : Paths}
  {w v : World} {verified : Verified} {d : Disk} {log : Bytes}
  {found : List (List Name × Bytes)}

/-! ### Runs that get as far as the packages -/

/-- A run is prepared with verified manifests, and the world is `v` then. -/
def Prepares (root : String) (config : Config) (paths : Paths) (w : World)
    (verified : Verified) (v : World) : Prop :=
  ∃ w₁, (begin paths).result w = (.ok (), w₁) ∧
    (prepare (config.distDir root) paths).result (w₁.logging paths.events) = (.ok verified, v)

/-- A run gets to the point where the packages are installed, with these verified manifests. The
code is brought into the sandbox in the world `v`, and the session is `u` when the packages come. -/
def Reaches (box : Sandbox S) (root : String) (config : Config) (paths : Paths) (s : Session S)
    (verified : Verified) (v : World) (u : Session S) : Prop :=
  ∃ w staged, (begin paths).result s.world = (.ok (), w) ∧
    (prepare (config.distDir root) paths).result (w.logging paths.events) = (.ok verified, v) ∧
    (Stage.entering box
        { codeDir := paths.codeDir, depsDir := paths.depsDir, depsManifest := verified.deps }
        (hostInfo verified.code)).result { world := v, state := s.state } = (.ok staged, u)

theorem holds_of_tree (hd : w.disk.Sound)
    (h : (World.onDisk (tree m directory)).result w = (.ok (), v)) :
    v = w ∧ Holds w.disk directory m := by
  rw [World.onDisk, result_onPart] at h
  rcases Verify.tree_cases hd m directory with ⟨found, hfound, hlists, hres⟩ | ⟨i, hres⟩
  · rw [hres] at h
    cases h
    exact ⟨rfl, found, hfound, hlists, hlists.perm⟩
  · rw [hres] at h
    cases h

theorem prepare_eq_ok (hd : w.disk.Sound) (h : (prepare dist paths).result w = (.ok verified, v)) :
    v.disk.Sound ∧ Holds v.disk paths.codeDir verified.code ∧
      Holds v.disk paths.depsDir verified.deps := by
  rw [prepare] at h
  obtain ⟨verified', w₁, hdist, h⟩ := result_bind_eq_ok.1 h
  obtain ⟨⟨⟩, w₂, hunpack, h⟩ := result_bind_eq_ok.1 h
  obtain ⟨⟨⟩, w₃, hcode, h⟩ := result_bind_eq_ok.1 h
  obtain ⟨⟨⟩, w₄, hdeps, h⟩ := result_bind_eq_ok.1 h
  cases h
  have hw₁ : w₁.disk.Sound := by
    rcases Verify.dist_cases dist w with ⟨code, deps, -, -, hres⟩ | ⟨code, i, -, -, hres⟩ |
      ⟨-, i, hres⟩
    · cases hres.symm.trans hdist
      exact World.sound_reporting (World.sound_reporting hd _) _
    · cases hres.symm.trans hdist
    · cases hres.symm.trans hdist
  have hw₂ : w₂.disk.Sound :=
    ((World.moves_onDisk (staysSound_unpack dist paths)).of_result hunpack).1 hw₁
  obtain ⟨rfl, hcode⟩ := holds_of_tree hw₂ hcode
  obtain ⟨rfl, hdeps⟩ := holds_of_tree hw₂ hdeps
  exact ⟨hw₂, hcode, hdeps⟩

theorem Reaches.prepares (h : Reaches box root config paths s verified v u) :
    Prepares root config paths s.world verified v := by
  obtain ⟨w, -, hbegin, hprepare, -⟩ := h
  exact ⟨w, hbegin, hprepare⟩

theorem Reaches.unique (h : Reaches box root config paths s verified v u)
    (h' : Reaches box root config paths s verified v u') : u = u' := by
  obtain ⟨-, staged, -, -, hentering⟩ := h
  obtain ⟨-, staged', -, -, hentering'⟩ := h'
  exact (Prod.mk.inj (hentering.symm.trans hentering')).2

theorem Prepares.holds (h : Prepares root config paths w verified v) (hw : w.disk.Sound) :
    v.disk.Sound ∧ Holds v.disk paths.codeDir verified.code ∧
      Holds v.disk paths.depsDir verified.deps := by
  obtain ⟨w₁, hbegin, hprepare⟩ := h
  have hw₁ : (w₁.logging paths.events).disk.Sound := ((along_begin paths).of_result hbegin).1 hw
  exact prepare_eq_ok hw₁ hprepare

theorem holds_of_reaches (h : Reaches box root config paths s verified v u)
    (hs : s.world.disk.Sound) : v.disk.Sound ∧ Holds v.disk paths.codeDir verified.code := by
  obtain ⟨hv, hcode, -⟩ := h.prepares.holds hs
  exact ⟨hv, hcode⟩

/-- A run is prepared when both artifacts are accepted and are there as they should be unpacked. -/
theorem result_prepare (hcode : Authentic w.disk (code dist) verified.code)
    (hdeps : Authentic (codeAccepted dist w verified.code).disk (deps dist) verified.deps)
    (hv : bothAccepted dist w verified.code verified.deps = v)
    (hunpack : (unpack dist paths).result v.disk = (.ok (), v.disk))
    (hcodeTree : (tree verified.code paths.codeDir).result v.disk = (.ok (), v.disk))
    (hdepsTree : (tree verified.deps paths.depsDir).result v.disk = (.ok (), v.disk)) :
    (prepare dist paths).result w = (.ok verified, v) := by
  have honDisk : ∀ {x : Action Disk Unit}, x.result v.disk = (.ok (), v.disk) →
      (World.onDisk x).result v = (.ok (), v) := fun h => by
    rw [World.onDisk, result_onPart, h]
  have hdist := result_dist hcode hdeps
  rw [hv] at hdist
  rw [prepare, result_bind_of_ok hdist, result_bind_of_ok (honDisk hunpack),
    result_bind_of_ok (honDisk hcodeTree), result_bind_of_ok (honDisk hdepsTree)]
  rfl

/-! ### What a sandbox shows -/

/-- Named contents are those that a manifest records: the names, the sizes and the hashes agree. -/
def Recorded (m : ArchiveManifest) (files : List (String × Bytes)) : Prop :=
  (files.map fun file => Archive.entryOf file.1 file.2).Perm m.files

/-- The files of a tree by their names as they are shown. -/
def named (found : List (List Name × Bytes)) : List (String × Bytes) :=
  found.map fun file => (shown file.1, file.2)

theorem mem_named : (name, c) ∈ named found ↔ ∃ file ∈ found, name = shown file.1 ∧ c = file.2 := by
  simp [named, eq_comm]

theorem Holds.exists_recorded (hd : d.Sound)
    (h : Holds d directory m) (htext : d.LegibleTree directory) :
    ∃ found, d.treeFiles directory = .ok found ∧ (found.map fun file => shown file.1).Nodup ∧
      Recorded m (named found) := by
  obtain ⟨found, hfound, -, hperm⟩ := h
  have hnodup := hd.nodup_shown hfound (htext found hfound)
  refine ⟨found, hfound, hnodup, ?_⟩
  rw [Recorded, named, List.map_map]
  exact (hperm hnodup).symm

theorem inApp_injective : Function.Injective inApp := fun a b h =>
  String.toList_injective (by simpa [inApp] using congrArg String.toList h)

theorem scripted_shows
    (h : Reaches Sandbox.scripted root config paths s verified v u) (hs : s.world.disk.Sound)
    (htext : v.disk.LegibleTree paths.codeDir)
    (hempty : ∀ name, s.state.memory.readBytes (inApp name) = none) :
    ∃ files, Recorded verified.code files ∧
      (∀ name c, u.state.memory.readBytes (inApp name) = some c ↔ (name, c) ∈ files) ∧
      ∀ path, (∀ name, path ≠ inApp name) →
        u.state.memory.readBytes path = s.state.memory.readBytes path := by
  obtain ⟨hv, hholds⟩ := holds_of_reaches h hs
  obtain ⟨found, hfound, hnodup, hrecorded⟩ := hholds.exists_recorded hv htext
  obtain ⟨w, staged, -, -, hentering⟩ := h
  obtain ⟨n, w', state, e, e', hbring, -, hinject⟩ :=
    Stage.entering_eq_ok (fun _ _ => rfl) hentering
  have hplaces : (found.map fun file => id (inApp (shown file.1))).Nodup := by
    have := hnodup.map inApp_injective
    rwa [List.map_map] at this
  obtain ⟨-, hlaid⟩ := Sandbox.View.bringIn (V := Sandbox.Scripted.view v.disk)
    (s := (v.disk, s.state)) rfl trivial hfound (fun _ _ _ _ => trivial)
    (fun file hfile s c hs hread => hv.eq_of_readBytes_collected hfound hfile (hs ▸ hread)) hplaces
    hbring
  have hmemory : u.state.memory = state.memory := by
    have hstate := congrArg (fun r => r.2.2.memory) hinject
    exact hstate.symm
  refine ⟨named found, hrecorded, fun name c => ?_, fun path hpath => ?_⟩
  · rw [hmemory, mem_named]
    exact (hlaid.eq_some_iff (hempty name)).trans (exists_congr fun file => and_congr_right fun _ =>
      and_congr_left fun _ => inApp_injective.eq_iff)
  · rw [hmemory]
    exact hlaid.eq_of_forall_ne fun file _ => hpath _

def hostFile (code : ArchiveManifest) : Bytes :=
  ofText (hostInfo code).toValue.pretty

/-- Named contents with the file of the host in place of one of that name. -/
def withHost (host : Bytes) (files : List (String × Bytes)) : List (String × Bytes) :=
  ("host.json", host) :: files.filter fun file => file.1 ≠ "host.json"

theorem mem_withHost :
    (name, c) ∈ withHost host files ↔
      (name = "host.json" ∧ c = host) ∨ (name ≠ "host.json" ∧ (name, c) ∈ files) := by
  simp [withHost, and_comm]

section Native

open Sandbox.Native

variable {S : Place}

/-- Where the code was brought into an empty directory, the event logs that were there are
elsewhere. -/
theorem hosts_of_stands (hv : v.disk.Sound)
    (hroot : v.disk.EmptyDirectory path S) (hlogs : ∀ path ∈ v.logs, v.disk.exists? path)
    (hw : w.logs = v.logs) (h : Stands path S v.disk (w.disk, state)) : World.Hosts path S w where
  workplace := h.workplace
  logs log hlog := by
    refine (hv.beyond_of_exists hroot.empty (hlogs log (hw ▸ hlog))).leaves hv ⟨h.grows, ?_⟩
    exact fun p c hout hp => ⟨c, (h.changes.entry p hout).trans hp⟩

theorem shown_eq_of_placeOf {names} (h : placeOf (inApp "host.json") = ofText "app" :: names) :
    shown names = "host.json" := by
  have hhost : placeOf (inApp "host.json") = [ofText "app", ofText "host.json"] := by
    decide
  rw [hhost, List.cons.injEq] at h
  rw [← h.2]
  decide

theorem exists_mem_withHost_iff
    (hplaceOf : ∀ file ∈ found, placeOf (inApp (shown file.1)) = ofText "app" :: file.1)
    {host c k} :
    (∃ name, (name, c) ∈ withHost host (named found) ∧ k = placeOf (inApp name)) ↔
      (k = placeOf (inApp "host.json") ∧ c = host) ∨ (k ≠ placeOf (inApp "host.json") ∧
        ∃ file ∈ found, k = placeOf (inApp (shown file.1)) ∧ c = file.2) := by
  constructor
  · rintro ⟨name, hmem, rfl⟩
    rcases mem_withHost.1 hmem with ⟨rfl, rfl⟩ | ⟨hne, hmem⟩
    · exact .inl ⟨rfl, rfl⟩
    · obtain ⟨file, hfile, rfl, rfl⟩ := mem_named.1 hmem
      refine .inr ⟨fun heq => hne ?_, file, hfile, rfl, rfl⟩
      exact shown_eq_of_placeOf (heq.symm.trans (hplaceOf file hfile))
  · rintro (⟨rfl, rfl⟩ | ⟨hne, file, hfile, rfl, rfl⟩)
    · exact ⟨"host.json", mem_withHost.2 (.inl ⟨rfl, rfl⟩), rfl⟩
    · refine ⟨shown file.1, mem_withHost.2 (.inr ⟨fun heq => hne ?_, ?_⟩), rfl⟩
      · rw [heq]
      · exact mem_named.2 ⟨file, hfile, rfl, rfl⟩

theorem native_shows {s u}
    (h : Reaches Sandbox.native root config paths s verified v u) (hs : s.world.disk.Sound)
    (htext : v.disk.LegibleTree paths.codeDir) (hroot : v.disk.EmptyDirectory s.state.root S)
    (hlogs : ∀ path ∈ v.logs, v.disk.exists? path) :
    ∃ files, Recorded verified.code files ∧
      (∀ k c, u.world.disk.get? (S ++ k) = some (.file c) ↔
        ∃ name, (name, c) ∈ withHost (hostFile verified.code) files ∧ k = placeOf (inApp name)) ∧
      ∀ k t, u.world.disk.get? (S ++ k) ≠ some (.symlink t) := by
  obtain ⟨hv, hholds⟩ := holds_of_reaches h hs
  obtain ⟨found, hfound, -, hrecorded⟩ := hholds.exists_recorded hv htext
  have hproper := hv.proper_of_treeFiles hfound
  have hplaceOf : ∀ file ∈ found, placeOf (inApp (shown file.1)) = ofText "app" :: file.1 :=
    fun file hfile => placeOf_inApp (hproper file hfile) (htext found hfound file hfile)
  have hplaces : (found.map fun file => placeOf (inApp (shown file.1))).Nodup := by
    rw [List.map_congr_left hplaceOf]
    have := (hv.nodup_treeFiles hfound).map (List.cons_injective (a := ofText "app"))
    rwa [List.map_map] at this
  obtain ⟨w, staged, -, -, hentering⟩ := h
  obtain ⟨n, w', state, e, e', hbring, hworld, hinject⟩ :=
    Stage.entering_eq_ok moves_resolveModule hentering
  obtain ⟨hstands, hlaid⟩ := Sandbox.View.bringIn (V := view s.state.root S v.disk)
    (s := (v.disk, s.state)) ⟨rfl, hroot.workplace hv, .refl _ _, .refl _⟩
    ⟨["app"], by simp, by decide, by decide⟩ hfound (ready_view hproper)
    (reads_view hv hroot.empty hfound) hplaces hbring
  have hhosts := hosts_of_stands hv hroot hlogs (by rw [hworld]) hstands
  obtain ⟨hhosts₁, hsame⟩ := hhosts.reporting e
  obtain ⟨hhosts₂, hsame'⟩ := hhosts₁.reporting e'
  have hready : Stands s.state.root S ((w'.reporting e).reporting e').disk
      (((w'.reporting e).reporting e').disk, state) :=
    ⟨hstands.root_eq, hhosts₂.workplace, .refl _ _, .refl _⟩
  obtain ⟨hlast, hfiles⟩ := hready.injectHost hinject
  refine ⟨named found, hrecorded, fun k c => ?_, fun k t => ?_⟩
  · have hcode : w'.disk.fileAt? (S ++ k) = some c ↔
        ∃ file ∈ found, k = placeOf (inApp (shown file.1)) ∧ c = file.2 :=
      hlaid.eq_some_iff (hroot.fileAt?_eq_none k)
    rw [← fileAt?_eq_some, hfiles, fileAt?_congr ((hsame' k).trans (hsame k)),
      exists_mem_withHost_iff hplaceOf, ← hcode]
    by_cases hk : k = placeOf (inApp "host.json")
    · simp [hk, hostFile, eq_comm]
    · simp [hk]
  · rcases eq_or_ne k [] with rfl | hk
    · rw [List.append_nil, hlast.workplace.directory]
      simp
    · exact (hlast.workplace.plain _ (inside_append hk)).link t

end Native

/-- The code that agents see is the code that was verified. When a run gets to the installation of
the packages, a sandbox without any code before shows the files of the verified manifest with the
contents that it records, and nothing else has changed in it. A native sandbox in an empty directory
also shows the file of the host, in place of a listed one of that name; the event logs are not among
its files, since they exist when the directory is still empty. -/
theorem visible_code_is_verified_code (root : String) (config : Config) (paths : Paths) :
    (∀ (s u : Session Sandbox.Scripted) (verified : Verified) (v : World),
      Reaches Sandbox.scripted root config paths s verified v u → s.world.disk.Sound →
      v.disk.LegibleTree paths.codeDir →
      (∀ name, s.state.memory.readBytes (inApp name) = none) →
      ∃ files, Recorded verified.code files ∧
        (∀ name c, u.state.memory.readBytes (inApp name) = some c ↔ (name, c) ∈ files) ∧
        ∀ path, (∀ name, path ≠ inApp name) →
          u.state.memory.readBytes path = s.state.memory.readBytes path) ∧
    ∀ (s u : Session Sandbox.Native) (verified : Verified) (v : World) (S : Place),
      Reaches Sandbox.native root config paths s verified v u → s.world.disk.Sound →
      v.disk.LegibleTree paths.codeDir → v.disk.EmptyDirectory s.state.root S →
      (∀ path ∈ v.logs, v.disk.exists? path = true) →
      ∃ files, Recorded verified.code files ∧
        (∀ k c, u.world.disk.get? (S ++ k) = some (.file c) ↔
          ∃ name, (name, c) ∈ withHost (hostFile verified.code) files ∧
            k = Sandbox.Native.placeOf (inApp name)) ∧
        ∀ k t, u.world.disk.get? (S ++ k) ≠ some (.symlink t) :=
  ⟨fun _ _ _ _ h hs htext hempty => scripted_shows h hs htext hempty,
    fun _ _ _ _ _ h hs htext hroot hlogs => native_shows h hs htext hroot hlogs⟩

/-! ### A small run -/

open Verify (Authentic)

def smallArchive : Bytes :=
  Gzip.encode Tar.ending

def smallRegistry : Bytes :=
  ofText ({ agents := [⟨"a", "a", "a.m"⟩], rootAgent := "a" } : Registry).toValue.compact

def placeAt (names : List String) : Place :=
  names.map ofText

/-- A place in the directory of the small run. -/
def runPlace (names : List String) : Place :=
  placeAt (["w", "dist", "runs", "r"] ++ names)

/-- A small code tree, in which there is a file with the name of that of the host. -/
def smallTree (registry : Bytes) : List (List Name × Bytes) :=
  [(placeAt ["a", "m"], [1]), (placeAt ["host.json"], [2]), (placeAt ["registry.json"], registry)]

/-- The manifest of the archive without members and of the files of a tree. -/
def smallManifest (archive : String) (files : List (List Name × Bytes)) : ArchiveManifest :=
  { ArchiveManifest.new {} archive (files.map Verify.entryOf) with
    archiveSha256 := Sha256.hex smallArchive }

def smallVerified : Verified where
  code := smallManifest "code.tar.gz" (smallTree smallRegistry)
  deps := smallManifest "deps.tar.gz" []

/-- A disk on which both trees are there already, and an empty directory for a sandbox. -/
def diskWith (archive code deps registry log : Bytes) : Disk where
  entries := [
    (placeAt ["s"], .directory), (placeAt ["w"], .directory), (placeAt ["w", "dist"], .directory),
    (placeAt ["w", "dist", "code.tar.gz"], .file archive),
    (placeAt ["w", "dist", "code.manifest.json"], .file code),
    (placeAt ["w", "dist", "deps.tar.gz"], .file archive),
    (placeAt ["w", "dist", "deps.manifest.json"], .file deps),
    (placeAt ["w", "dist", "runs"], .directory), (runPlace [], .directory),
    (runPlace ["code"], .directory),
    (runPlace ["code", "a"], .directory),
    (runPlace ["code", "a", "m"], .file [1]),
    (runPlace ["code", "host.json"], .file [2]),
    (runPlace ["code", "registry.json"], .file registry),
    (runPlace ["deps"], .directory),
    (runPlace ["events.jsonl"], .file log)]
  home := []

def smallPaths : Paths :=
  Paths.new "/w/dist" "r"

/-- The disk of the small run with what is in its event log. -/
def smallDisk (log : Bytes) : Disk :=
  diskWith smallArchive (ofText (smallVerified.code.toValue.pretty ++ "\n"))
    (ofText (smallVerified.deps.toValue.pretty ++ "\n")) smallRegistry log

theorem unpack_small (hcode : d.readBytes (code "/w/dist").archive = .ok smallArchive)
    (hdeps : d.readBytes (deps "/w/dist").archive = .ok smallArchive)
    (hcodeDir : (OnDisk.createDirectories smallPaths.codeDir).result d = (.ok (), d))
    (hdepsDir : (OnDisk.createDirectories smallPaths.depsDir).result d = (.ok (), d)) :
    (unpack "/w/dist" smallPaths).result d = (.ok (), d) := by
  obtain ⟨members, hmembers, hread⟩ := (⟨.nil, by simp, .nil⟩ : Archive.Carries [] []).exists_members
  cases hmembers
  have hunpack : ∀ {archive dest : String}, d.readBytes archive = .ok smallArchive →
      (OnDisk.createDirectories dest).result d = (.ok (), d) →
      (Archive.unpack archive dest).result d = (.ok (), d) := by
    intro archive dest hopen hmake
    have hopened : (OnDisk.read (·.openFile archive)).result d = (.ok (.file smallArchive), d) :=
      OnDisk.result_read_eq_ok.2 ⟨openFile_of_readBytes hopen, rfl⟩
    rw [Archive.unpack, result_bind_of_ok (result_within_eq_ok.2 hopened), result_bind_of_ok hmake]
    rw [smallArchive, ← List.nil_append Tar.ending, hread]
    rfl
  rw [unpack, result_bind_of_ok (hunpack hcode hcodeDir)]
  exact hunpack hdeps hdepsDir

set_option maxRecDepth 100000

section DiskWith

variable {archive code deps registry log : Bytes}

theorem sound_diskWith : (diskWith archive code deps registry log).Sound :=
  sound_of_fits ⟨show (diskWith [] [] [] [] []).places.Nodup by decide +kernel, by rfl, rfl, rfl⟩

theorem emptyDirectory_diskWith :
    (diskWith archive code deps registry log).EmptyDirectory "/s" (placeAt ["s"]) where
  leads := walkLinks_eq_present_directory_iff.mp (by rfl)
  directory := rfl
  empty := bare_of_places
    (show ∀ q ∈ (diskWith [] [] [] [] []).places, ¬ inside (placeAt ["s"]) q by decide +kernel)

end DiskWith

theorem authentic_small
    (hmanifest : d.readBytes a.manifest = .ok (ofText (m.toValue.pretty ++ "\n")))
    (harchive : d.readBytes a.archive = .ok smallArchive)
    (hhash : m.archiveSha256 = Sha256.hex smallArchive) (hsize : m.archiveSize = none)
    (hfiles : ∀ files, m.packageFiles = some files → Json.Ascending files) : Authentic d a m where
  described := ⟨_, readText_eq_ok.2 hmanifest, ArchiveManifest.parse?_toValue _ hfiles⟩
  hashed := hhash ▸ Sha256.isAllBlank_hex smallArchive
  held := ⟨smallArchive, harchive, hhash, by simp [hsize]⟩

theorem treeFiles_small :
    (smallDisk log).treeFiles smallPaths.codeDir = .ok (smallTree smallRegistry) :=
  rfl

theorem result_tree_small (hd : d.Sound)
    (hfound : d.treeFiles smallPaths.codeDir = .ok (smallTree smallRegistry))
    (hread : ∀ file ∈ smallTree smallRegistry,
      ∃ c, d.readBytes (collected smallPaths.codeDir file).path = .ok c) :
    (tree smallVerified.code smallPaths.codeDir).result d = (.ok (), d) := by
  have hnames : smallVerified.code.files.map (·.filename) =
      ["a/m", "host.json", "registry.json"] := by rfl
  exact result_tree hd hfound hread (.refl _) (by rw [hnames]; decide)

theorem tree_small : (tree smallVerified.code smallPaths.codeDir).result (smallDisk log) =
        (.ok (), smallDisk log) ∧
      (tree smallVerified.deps smallPaths.depsDir).result (smallDisk log) =
        (.ok (), smallDisk log) := by
  have hnone : (smallDisk log).treeFiles smallPaths.depsDir = .ok [] := rfl
  refine ⟨result_tree_small sound_diskWith treeFiles_small fun file hfile => ?_,
    result_tree sound_diskWith hnone (by simp) (.refl _) .nil⟩
  simp only [smallTree, List.mem_cons, List.not_mem_nil, or_false] at hfile
  rcases hfile with rfl | rfl | rfl <;> exact ⟨_, rfl⟩

/-- The files of the small code tree in the order in which they are brought in. -/
def smallFiles : List Collected :=
  (smallTree smallRegistry).map (collected smallPaths.codeDir)

theorem collect_of_treeFiles (h : d.treeFiles smallPaths.codeDir = .ok (smallTree smallRegistry)) :
    d.collect smallPaths.codeDir = .ok smallFiles := by
  rw [collect_eq, h]
  refine congrArg Except.ok (List.mergeSort_of_pairwise ?_)
  rw [List.pairwise_map]
  decide

/-- Disks on which the small code and some dependencies are there as they should be unpacked, by what is
in the event log. -/
structure Stocked (disk : Bytes → Disk) (verified : Verified) : Prop where
  begun : (begin smallPaths).result { blank with disk := disk [] } =
    (.ok (), { blank with disk := disk [] })
  logged : ∀ log line, World.appendLine line (disk log) smallPaths.events = disk (log ++ line)
  code : ∀ log, Authentic (disk log) (code "/w/dist") verified.code
  deps : ∀ log, Authentic (disk log) (deps "/w/dist") verified.deps
  unpacked : ∀ log, (unpack "/w/dist" smallPaths).result (disk log) = (.ok (), disk log)
  codeTree : ∀ log, (tree verified.code smallPaths.codeDir).result (disk log) = (.ok (), disk log)
  depsTree : ∀ log, (tree verified.deps smallPaths.depsDir).result (disk log) = (.ok (), disk log)
  files : ∀ log, (disk log).collect smallPaths.codeDir = .ok smallFiles

def startWith (disk : Bytes → Disk) : World :=
  { blank with disk := disk [] }

def reachedWith (disk : Bytes → Disk) (verified : Verified) : World :=
  bothAccepted "/w/dist" ((startWith disk).logging smallPaths.events) verified.code verified.deps

namespace Stocked

variable {disk : Bytes → Disk} (h : Stocked disk verified)
include h

theorem exists_log (hlogs : w.logs = [smallPaths.events])
    (hdisk : w.disk = disk log) (e : Event) : ∃ log', (w.reporting e).disk = disk log' := by
  refine ⟨log ++ ofText ({ e with timestamp := w.clock.millis } : Event).line, ?_⟩
  have hfold : (w.reporting e).disk = w.logs.foldl (World.appendLine
      (ofText ({ e with timestamp := w.clock.millis } : Event).line)) w.disk := rfl
  rw [hfold, hlogs, hdisk]
  exact h.logged _ _

theorem prepares_of (hlogs : w.logs = [smallPaths.events]) (hdisk : w.disk = disk []) :
    (∃ log, (bothAccepted "/w/dist" w verified.code verified.deps).disk = disk log) ∧
      (prepare "/w/dist" smallPaths).result w =
        (.ok verified, bothAccepted "/w/dist" w verified.code verified.deps) := by
  obtain ⟨log, hlog⟩ := h.exists_log hlogs hdisk
    (Verify.acceptedEvent (Artifact.code "/w/dist") verified.code)
  obtain ⟨log', hlog'⟩ := h.exists_log (w := codeAccepted "/w/dist" w verified.code) hlogs hlog
    (Verify.acceptedEvent (Artifact.deps "/w/dist") verified.deps)
  have hdeps : Authentic (codeAccepted "/w/dist" w verified.code).disk (Artifact.deps "/w/dist")
      verified.deps := hlog ▸ h.deps log
  exact ⟨⟨log', hlog'⟩, result_prepare (hdisk ▸ h.code []) hdeps rfl (hlog' ▸ h.unpacked log')
    (hlog' ▸ h.codeTree log') (hlog' ▸ h.depsTree log')⟩

theorem prepares : (∃ log, (reachedWith disk verified).disk = disk log) ∧
    (prepare "/w/dist" smallPaths).result ((startWith disk).logging smallPaths.events) =
      (.ok verified, reachedWith disk verified) :=
  h.prepares_of rfl rfl

/-- The session of a run when the packages are installed, if the code can be brought into the sandbox. -/
theorem reaches (hdist : config.distDir "/w" = "/w/dist") (box : Sandbox S) (state : S)
    (hentered : (Stage.enteringWith box ⟨smallPaths.codeDir, smallPaths.depsDir, verified.deps⟩
      (hostInfo verified.code) smallFiles).result { world := reachedWith disk verified, state } =
        (.ok staged, u)) :
    Reaches box "/w" config smallPaths { world := startWith disk, state } verified
      (reachedWith disk verified) u := by
  obtain ⟨⟨log, hlog⟩, hprepare⟩ := h.prepares
  have hfiles : (reachedWith disk verified).disk.collect smallPaths.codeDir = .ok smallFiles :=
    hlog ▸ h.files log
  exact ⟨startWith disk, staged, h.begun, hdist ▸ hprepare, Stage.result_entering hfiles hentered⟩

end Stocked

theorem stocked_small : Stocked smallDisk smallVerified where
  begun := rfl
  logged _ _ := rfl
  code _ := authentic_small rfl rfl rfl rfl nofun
  deps _ := authentic_small rfl rfl rfl rfl nofun
  unpacked _ := unpack_small rfl rfl rfl rfl
  codeTree _ := tree_small.1
  depsTree _ := tree_small.2
  files _ := collect_of_treeFiles treeFiles_small

theorem legibleTree_small : (smallDisk log).LegibleTree smallPaths.codeDir := by
  intro found hfound file hfile n hn
  cases treeFiles_small.symm.trans hfound
  have hplace : ∃ names, file.1 = placeAt names := by
    simp only [smallTree, List.mem_cons, List.not_mem_nil, or_false] at hfile
    rcases hfile with rfl | rfl | rfl <;> exact ⟨_, rfl⟩
  obtain ⟨names, hnames⟩ := hplace
  rw [hnames, placeAt, List.mem_map] at hn
  obtain ⟨s, -, rfl⟩ := hn
  exact Bytes.isText_ofText s

def smallStart : World :=
  { blank with disk := smallDisk [] }

def smallWorld : World :=
  { blank with disk := smallDisk [], logs := [smallPaths.events] }

/-- The world of the small run when the code is brought in. -/
def smallReached : World :=
  bothAccepted "/w/dist" smallWorld smallVerified.code smallVerified.deps

def smallInputs : Stage.Inputs where
  codeDir := smallPaths.codeDir
  depsDir := smallPaths.depsDir
  depsManifest := smallVerified.deps

theorem exists_reaches_small (box : Sandbox S) (state : S)
    (h : ((Stage.enteringWith box smallInputs (hostInfo smallVerified.code) smallFiles).result
      { world := smallReached, state }).1.toOption.isSome) :
    ∃ u, Reaches box "/w" {} smallPaths { world := smallStart, state } smallVerified smallReached
      u := by
  obtain ⟨staged, u, hrun⟩ := exists_of_isSome h
  exact ⟨u, stocked_small.reaches (by decide) box state hrun⟩

/-- A scripted sandbox that has the module of the small run. -/
def smallScripted : Sandbox.Scripted :=
  { modules := ["a.m"] }

/-- A native sandbox that has the module of the small run. -/
def smallNative : Sandbox.Native :=
  { root := "/s", modules := ⟨[("a.m", Agent.DotProduct.program)]⟩, installer := "", installed := []
    host := none }

theorem visible_code_small :
    (∃ u files, Reaches Sandbox.scripted "/w" {} smallPaths ⟨smallStart, smallScripted⟩
        smallVerified smallReached u ∧ Recorded smallVerified.code files ∧
      ∀ name c, u.state.memory.readBytes (inApp name) = some c ↔ (name, c) ∈ files) ∧
    ∃ u files, Reaches Sandbox.native "/w" {} smallPaths ⟨smallStart, smallNative⟩
        smallVerified smallReached u ∧ Recorded smallVerified.code files ∧
      ∀ k c, u.world.disk.get? (placeAt ["s"] ++ k) = some (.file c) ↔
        ∃ name, (name, c) ∈ withHost (hostFile smallVerified.code) files ∧
          k = Sandbox.Native.placeOf (inApp name) := by
  obtain ⟨log, hlog⟩ : ∃ log, smallReached.disk = smallDisk log := stocked_small.prepares.1
  have hs : smallStart.disk.Sound := sound_diskWith
  have htext : smallReached.disk.LegibleTree smallPaths.codeDir := hlog ▸ legibleTree_small
  have hroot : smallReached.disk.EmptyDirectory smallNative.root (placeAt ["s"]) :=
    hlog ▸ emptyDirectory_diskWith
  have hlogs : ∀ path ∈ smallReached.logs, smallReached.disk.exists? path = true := by
    decide +kernel
  obtain ⟨u, hu⟩ := exists_reaches_small Sandbox.scripted smallScripted (by decide +kernel)
  obtain ⟨u', hu'⟩ := exists_reaches_small Sandbox.native smallNative (by decide +kernel)
  obtain ⟨files, hrecorded, hshown, -⟩ := (visible_code_is_verified_code "/w" {} smallPaths).1
    _ u _ _ hu hs htext fun _ => rfl
  obtain ⟨files', hrecorded', hshown', -⟩ := (visible_code_is_verified_code "/w" {} smallPaths).2
    _ u' _ _ _ hu' hs htext hroot hlogs
  exact ⟨⟨u, files, hu, hrecorded, hshown⟩, u', files', hu', hrecorded', hshown'⟩

end AgentChain.Run
