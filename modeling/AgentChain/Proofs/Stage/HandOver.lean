import AgentChain.Proofs.FileTree.Custody
import AgentChain.Proofs.Stage.Visible

/-!
# Files that staging opens

Staging loads the registry from the unpacked code and hands the files of packages from the unpacked
dependencies to the sandbox. The trees were verified before, but what is opened later is found through
paths: the name of a package file comes from another part of the manifest, and links are followed. So
what is opened is a file that was verified if its path has plain names, the tree has no links, and it
is as it was.
-/

namespace AgentChain

open AgentChain.Path (join)
open Package (packagesDir)

/-! ### Packages that are handed over -/

namespace Stage

open AgentChain.Action

variable {S : Type} {box : Sandbox S} {inputs : Inputs} {vendor : Config.Vendoring}
  {pass : InstallPass} {install : (package archive : String) → Action (Disk × S) Unit}
  {packages : List String} {package archive : String} {s t u : Session S}
  {Q : String → Session S → Prop} {I : Session S → Prop}

def generalSet (inputs : Inputs) (vendor : Config.Vendoring) : List String :=
  (inputs.depsManifest.resolvedPackages.getD []).filter fun package =>
    !vendor.bootstrapSet.contains package

def Finds (inputs : Inputs) (pass : InstallPass) (d : Disk) (package archive : String) : Prop :=
  (packagePath inputs.depsDir (inputs.depsManifest.packageFiles.getD []) pass package).result d =
    (.ok archive, d)

/-- When packages are installed in a pass, the file of a package is handed to the sandbox. The session
is `t` then. -/
inductive Hands (inputs : Inputs) (pass : InstallPass)
    (install : (package archive : String) → Action (Disk × S) Unit) :
    List String → Session S → (package archive : String) → Session S → Prop
  | here {package archive : String} {rest : List String} {s : Session S}
    (found : Finds inputs pass s.world.disk package archive) :
    Hands inputs pass install (package :: rest) s package archive s
  | later {first package archive : String} {rest : List String} {s u t : Session S}
    (installed : (installOne inputs pass install first).result s = (.ok (), u))
    (handed : Hands inputs pass install rest u package archive t) :
    Hands inputs pass install (first :: rest) s package archive t

/-- What a sandbox does with the file of a package in a pass. -/
def taking (box : Sandbox S) : InstallPass → (package archive : String) → Action (Disk × S) Unit
  | .bootstrap => box.unpackIntoLibrary
  | .general => box.installPackage

/-- In a session in which the packages are to be installed, the file of a package is handed to the
sandbox in one of the passes. The session is `t` then. -/
inductive HandsOver (box : Sandbox S) (inputs : Inputs) (vendor : Config.Vendoring) (s : Session S) :
    InstallPass → (package archive : String) → Session S → Prop
  | bootstrap {package archive : String} {t : Session S}
    (handed : Hands inputs .bootstrap (taking box .bootstrap) vendor.bootstrapSet s package archive t) :
    HandsOver box inputs vendor s .bootstrap package archive t
  | general {package archive : String} {u t : Session S}
    (installed : (installAll inputs .bootstrap (taking box .bootstrap) vendor.bootstrapSet).result s =
      (.ok (), u))
    (available : box.hasInstaller (u.world.disk, u.state) = true)
    (handed : Hands inputs .general (taking box .general) (generalSet inputs vendor) u package archive
      t) :
    HandsOver box inputs vendor s .general package archive t

theorem finds_of_isFile
    (hlisted : Json.lookup? package (inputs.depsManifest.packageFiles.getD []) = some filename)
    (hfile : d.isFile (join (join inputs.depsDir packagesDir) filename)) :
    Finds inputs pass d package (join (join inputs.depsDir packagesDir) filename) := by
  rw [Finds, packagePath, hlisted]
  simp [result_bind, OnDisk.result_look, hfile]

/-- The reasons for which no file of a package is found. -/
inductive Unfound (inputs : Inputs) (d : Disk) (package : String) : String → Prop
  | absent (h : Json.lookup? package (inputs.depsManifest.packageFiles.getD []) = none) :
    Unfound inputs d package "not present in the dependency artifact"
  | missing (filename : String)
    (h : Json.lookup? package (inputs.depsManifest.packageFiles.getD []) = some filename)
    (hfile : d.isFile (join (join inputs.depsDir packagesDir) filename) = false) :
    Unfound inputs d package ("file " ++
      join (join inputs.depsDir packagesDir) filename ++ " missing from unpacked dependencies")

theorem result_packagePath (inputs : Inputs) (pass : InstallPass) (package : String) (d : Disk) :
    (∃ filename, Json.lookup? package (inputs.depsManifest.packageFiles.getD []) = some filename ∧
        d.isFile (join (join inputs.depsDir packagesDir) filename) ∧
        Finds inputs pass d package (join (join inputs.depsDir packagesDir) filename)) ∨
      ∃ reason, (packagePath inputs.depsDir (inputs.depsManifest.packageFiles.getD []) pass
        package).result d = (.error (.install ⟨pass, package, reason⟩), d) ∧
        Unfound inputs d package reason := by
  rw [packagePath]
  cases hlisted : Json.lookup? package (inputs.depsManifest.packageFiles.getD []) with
  | none => exact .inr ⟨_, rfl, .absent hlisted⟩
  | some filename =>
    simp only [result_bind, OnDisk.result_look]
    split
    · next hfile => exact .inl ⟨filename, rfl, hfile, finds_of_isFile hlisted hfile⟩
    · next hfile => exact .inr ⟨_, rfl, .missing filename hlisted (Bool.not_eq_true _ ▸ hfile)⟩

theorem Finds.exists_filename (h : Finds inputs pass d package archive) :
    ∃ filename, Json.lookup? package (inputs.depsManifest.packageFiles.getD []) = some filename ∧
      archive = join (join inputs.depsDir packagesDir) filename ∧
      d.isFile archive := by
  rcases result_packagePath inputs pass package d with
    ⟨filename, hfile, hfound, hpath⟩ | ⟨reason, hfailed, -⟩
  · cases hpath.symm.trans h
    exact ⟨filename, hfile, rfl, hfound⟩
  · cases hfailed.symm.trans h

theorem Hands.finds (h : Hands inputs pass install packages s package archive t) :
    Finds inputs pass t.world.disk package archive := by
  induction h with
  | here found => exact found
  | later _ _ ih => exact ih

theorem HandsOver.finds (h : HandsOver box inputs vendor s pass package archive t) :
    Finds inputs pass t.world.disk package archive := by
  cases h with
  | bootstrap handed => exact handed.finds
  | general _ _ handed => exact handed.finds

theorem result_installOne (inputs : Inputs) (pass : InstallPass)
    (install : (package archive : String) → Action (Disk × S) Unit) (package : String)
    (s : Session S) :
    (∃ filename, Json.lookup? package (inputs.depsManifest.packageFiles.getD []) = some filename ∧
      s.world.disk.isFile (join (join inputs.depsDir packagesDir) filename) ∧
      (installOne inputs pass install package).result s =
        match (Session.onState (install package
          (join (join inputs.depsDir packagesDir) filename))).result s with
        | (.ok (), u) => (.ok (), u.reporting (installedEvent pass package))
        | (.error f, u) => (.error (.install ⟨pass, package, f.message⟩), u)) ∨
    ∃ reason, Unfound inputs s.world.disk package reason ∧
      (installOne inputs pass install package).result s =
        (.error (.install ⟨pass, package, reason⟩), s) := by
  rw [installOne, result_bind, Session.onWorld, result_onPart, World.onDisk, result_onPart]
  rcases result_packagePath inputs pass package s.world.disk with
    ⟨filename, hlisted, hfile, hfound⟩ | ⟨reason, hfailed, hunfound⟩
  · refine .inl ⟨filename, hlisted, hfile, ?_⟩
    rw [hfound]
    refine (result_bind ..).trans ?_
    rw [result_attempt]
    rcases (Session.onState (install package _)).result s with ⟨f | ⟨⟩, u⟩ <;> rfl
  · rw [hfailed]
    exact .inr ⟨reason, hunfound, rfl⟩

theorem installOne_eq_ok (h : (installOne inputs pass install package).result s = (.ok (), t)) :
    ∃ (archive : String) (u : Session S), Finds inputs pass s.world.disk package archive ∧
      (install package archive).result (s.world.disk, s.state) = (.ok (), (u.world.disk, u.state)) ∧
      u.world = s.world.on u.world.disk ∧
      t = u.reporting (installedEvent pass package) := by
  rcases result_installOne inputs pass install package s with
    ⟨filename, hlisted, hfile, hres⟩ | ⟨reason, -, hres⟩
  swap
  · cases h.symm.trans hres
  rw [hres] at h
  split at h
  · next u htaken =>
    obtain ⟨hinstall, hworld⟩ := Session.of_result_onState htaken
    exact ⟨_, u, finds_of_isFile hlisted hfile, hinstall, hworld, (Prod.mk.inj h).2.symm⟩
  · cases h

/-- What one installation keeps, all of them keep. A file may have to fulfil something when it is
handed over. -/
theorem Hands.invariant
    (hstep : ∀ {package archive : String} {s u : Session S} (e : Event), I s → Q archive s →
      (install package archive).result (s.world.disk, s.state) = (.ok (), (u.world.disk, u.state)) →
      u.world = s.world.on u.world.disk → I (u.reporting e))
    (hs : I s)
    (hQ : ∀ package archive t, Hands inputs pass install packages s package archive t → Q archive t) :
    (∀ package archive t, Hands inputs pass install packages s package archive t → I t) ∧
      ∀ t, (installAll inputs pass install packages).result s = (.ok (), t) → I t := by
  induction packages generalizing s with
  | nil =>
    refine ⟨fun _ _ _ h => (by cases h), fun t h => ?_⟩
    cases h
    exact hs
  | cons first rest ih =>
    have hone : ∀ {u}, (installOne inputs pass install first).result s = (.ok (), u) → I u := by
      intro u h
      obtain ⟨archive, u', hfound, hinstall, hworld, rfl⟩ := installOne_eq_ok h
      exact hstep _ hs (hQ first archive s (.here hfound)) hinstall hworld
    have hrest : ∀ {u}, (installOne inputs pass install first).result s = (.ok (), u) →
        (∀ package archive t, Hands inputs pass install rest u package archive t → I t) ∧
          ∀ t, (installAll inputs pass install rest).result u = (.ok (), t) → I t := fun h =>
      ih (hone h) fun package archive t handed => hQ package archive t (.later h handed)
    refine ⟨fun package archive t handed => ?_, fun t h => ?_⟩
    · cases handed with
      | here => exact hs
      | later installed handed => exact (hrest installed).1 package archive t handed
    · obtain ⟨⟨⟩, u, hfirst, h⟩ := result_bind_eq_ok.1 h
      exact (hrest hfirst).2 t h

theorem HandsOver.invariant
    (hstep : ∀ {pass : InstallPass} {package archive : String} {s u : Session S} (e : Event), I s →
      Q archive s → (taking box pass package archive).result (s.world.disk, s.state) =
        (.ok (), (u.world.disk, u.state)) →
      u.world = s.world.on u.world.disk → I (u.reporting e))
    (hs : I s)
    (hQ : ∀ pass package archive t, HandsOver box inputs vendor s pass package archive t → Q archive t)
    (h : HandsOver box inputs vendor s pass package archive t) : I t := by
  have hpass : ∀ pass packages s, I s → (∀ package archive t, Hands inputs pass (taking box pass)
      packages s package archive t → Q archive t) →
      (∀ package archive t, Hands inputs pass (taking box pass) packages s package archive t → I t) ∧
        ∀ t, (installAll inputs pass (taking box pass) packages).result s = (.ok (), t) → I t :=
    fun pass packages s hs hQ => Hands.invariant (fun e => hstep e) hs hQ
  have hbootstrap := hpass .bootstrap vendor.bootstrapSet s hs fun package archive t handed =>
    hQ _ package archive t (.bootstrap handed)
  cases h with
  | bootstrap handed => exact hbootstrap.1 package archive t handed
  | general installed available handed =>
    exact (hpass .general (generalSet inputs vendor) _ (hbootstrap.2 _ installed)
      fun package archive t handed => hQ _ package archive t
        (.general installed available handed)).1 package archive t handed

end Stage

namespace Run

open AgentChain.Action Disk

variable {S : Type} {box : Sandbox S} {root : String} {config : Config} {paths : Paths}
  {s t : Session S} {verified : Verify.Verified} {v : World} {m : ArchiveManifest}
  {directory name path : String} {D : Place}

/-- The unpacked artifacts of a run. -/
def inputs (paths : Paths) (verified : Verify.Verified) : Stage.Inputs where
  codeDir := paths.codeDir
  depsDir := paths.depsDir
  depsManifest := verified.deps

/-- A run with verified manifests opens a file of an unpacked tree: the registry when it is loaded, or
the file of a package when it is handed to the sandbox. The manifest of the tree should record the
file under the name. The session is `t` when the file is opened. -/
inductive Opens (box : Sandbox S) (root : String) (config : Config) (paths : Paths) (s : Session S)
    (verified : Verify.Verified) (v : World) :
    ArchiveManifest → (directory name path : String) → Session S → Prop
  | registry {t : Session S} (prepared : Prepares root config paths s.world verified v)
    (mirrored : (Stage.mirroring box (inputs paths verified)).result
      { world := v, state := s.state } = (.ok (), t))
    (present : t.world.disk.isFile (join paths.codeDir Registry.fileName) = true) :
    Opens box root config paths s verified v verified.code paths.codeDir Registry.fileName
      (join paths.codeDir Registry.fileName) t
  | package {u t : Session S} {pass : InstallPass} {package filename path : String}
    (reached : Reaches box root config paths s verified v u)
    (handed : Stage.HandsOver box (inputs paths verified) config.vendor u pass package path t)
    (listed : Json.lookup? package (verified.deps.packageFiles.getD []) = some filename) :
    Opens box root config paths s verified v verified.deps paths.depsDir
      (packagesDir ++ "/" ++ filename) path t

/-- What stands at a path is recorded in a manifest under a name: its size and its hash agree. -/
def RecordedAt (m : ArchiveManifest) (d : Disk) (path name : String) : Prop :=
  ∃ c, d.readBytes path = .ok c ∧ Archive.entryOf name c ∈ m.files

theorem Holds.entryOf_mem (h : Holds d directory m) (hd : d.Sound)
    (hsettled : d.Settled directory D) (hintact : Intact directory D d d')
    (hname : Path.IsPlain name) (hread : d'.readBytes (join directory name) = .ok c) :
    Archive.entryOf name c ∈ m.files := by
  obtain ⟨found, hfound, -, hperm⟩ := h
  have hmem := hsettled.mem_treeFiles hd hintact hfound hname hread
  have hentry := (hperm (hsettled.shown found hfound)).mem_iff.2 (List.mem_map_of_mem hmem)
  rwa [Verify.entryOf, shown_ofText, Path.segments, Text.join_split] at hentry

section

variable (h : Opens box root config paths s verified v m directory name path t)
include h

theorem Opens.prepares : Prepares root config paths s.world verified v := by
  cases h with
  | registry prepared => exact prepared
  | package reached => exact reached.prepares

/-- The tree that a file is opened in holds what the manifest says. -/
theorem Opens.holds (hs : s.world.disk.Sound) : Holds v.disk directory m := by
  obtain ⟨-, hcode, hdeps⟩ := h.prepares.holds hs
  cases h with
  | registry => exact hcode
  | package => exact hdeps

theorem Opens.path_eq (hname : Path.IsPlain name) :
    path = join directory name ∧ t.world.disk.isFile path := by
  cases h with
  | registry prepared mirrored present => exact ⟨rfl, present⟩
  | package reached handed listed =>
    obtain ⟨filename, hlisted, rfl, hfile⟩ := handed.finds.exists_filename
    cases hlisted.symm.trans listed
    exact ⟨(Path.join_append_slash (by decide) hname.of_append.isAbsolute_eq).symm, hfile⟩

/-- What a run opens through a plain path is recorded in the manifest of the tree, if the tree has no
links and is as it was when it was verified. -/
theorem Opens.recorded
    (hs : s.world.disk.Sound) (hsettled : v.disk.Settled directory D) (hname : Path.IsPlain name)
    (hintact : Intact directory D v.disk t.world.disk) :
    RecordedAt m t.world.disk path name := by
  obtain ⟨rfl, hfile⟩ := h.path_eq hname
  obtain ⟨c, hread⟩ := isFile_iff.1 hfile
  exact ⟨c, hread, (h.holds hs).entryOf_mem (h.prepares.holds hs).1 hsettled hintact hname hread⟩

end

end Run

end AgentChain
