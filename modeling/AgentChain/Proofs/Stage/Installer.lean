import AgentChain.Proofs.Failures
import AgentChain.Proofs.Package.Sourced
import AgentChain.Proofs.Sandbox.Installing
import AgentChain.Proofs.Stage.HandOver

/-!
# The installer is there

A configuration is accepted only if its installer is among its bootstrap packages, whatever the names
are spelled like. Staging unpacks the bootstrap packages first, and the sandbox notes each of them by
its normal name. A normal name stays as it is, so after the bootstrap pass the installer is there, and
it stays there while the other packages are installed. What can still go wrong is a package that the
manifest does not list, that is not among the unpacked files, or that cannot be unpacked. The first of
these does not happen to a bootstrap package if the manifest goes back to a vendoring that succeeded.
-/

namespace AgentChain

open AgentChain.Action
open PackageName (normalize)

/-! ### Names of bootstrap packages -/

theorem Config.normalize_installer_mem {config : Config} (h : config.flaw? = none) :
    normalize config.vendor.installerPackage ∈ config.vendor.bootstrapSet := by
  by_contra hnot
  simp only [flaw?] at h
  split_ifs at h

theorem Config.Vendoring.normalize_of_mem_bootstrapSet {vendor : Config.Vendoring}
    (h : name ∈ vendor.bootstrapSet) : normalize name = name := by
  rw [bootstrapSet, Text.NameSet.mem_ofList] at h
  obtain ⟨written, -, rfl⟩ := List.mem_map.1 h
  exact PackageName.normalize_normalize written

/-! ### What staging does to the state of a native sandbox -/

namespace Sandbox.Native

variable {s t : Disk × Native} {package archive : String}

/-- Files may change, and what the sandbox notes about itself does not. -/
def SameNotes (s t : Disk × Native) : Prop :=
  t.2 = s.2

theorem SameNotes.frame : Frame SameNotes where
  refl _ := rfl
  trans h h' := Eq.trans h' h

theorem sameNotes_atPath (path : String) (act : String → Action Disk α) :
    Moves SameNotes (atPath path act) := by
  intro s
  rw [atPath, result_ofResult, SameNotes]
  split <;> rfl

theorem sameNotes_bringIn (source dest : String) : Moves SameNotes (native.bringIn source dest) := by
  have hcreate (path : String) : Moves SameNotes (createDirectories path) := by
    rw [createDirectories]
    exact sameNotes_atPath path _
  have hwrite (path : String) (contents : Bytes) : Moves SameNotes (writeFile path contents) := by
    rw [writeFile]
    exact sameNotes_atPath path _
  exact composes_bringIn ⟨SameNotes.frame.pure, SameNotes.frame.bind⟩ (fun _ _ => rfl) (fun _ => rfl)
    hcreate hwrite dest

/-- What unpacking into the library comes to: the package is noted by its normal name, or the file of
the package could not be unpacked. -/
theorem unpackIntoLibrary_cases (package archive : String) (s : Disk × Native) :
    (∃ d, (unpackIntoLibrary package archive).result s = (.ok (), (d, { s.2 with
      installed := Text.NameSet.insert (normalize package) s.2.installed }))) ∨
    ∃ f t, (unpackIntoLibrary package archive).result s =
      (.error (.within (.unpackPackage package archive) f), t) := by
  rw [unpackIntoLibrary, result_bind, atPath, result_ofResult, hostPath_libraryRoot]
  simp only [result_within]
  rcases (Archive.unpackPackage archive (libraryIn s.2.root)).result s.1 with ⟨f | ⟨⟩, d⟩
  · exact .inr ⟨f, _, rfl⟩
  · exact .inl ⟨d, rfl⟩

theorem hasInstaller_iff : hasInstaller s ↔ s.2.installer ∈ s.2.installed := by
  rw [hasInstaller, List.contains_iff_mem]

theorem of_unpackIntoLibrary (h : (unpackIntoLibrary package archive).result s = (.ok (), t)) :
    t.2.installer = s.2.installer ∧
      ∀ name, name ∈ t.2.installed ↔ name = normalize package ∨ name ∈ s.2.installed := by
  rcases unpackIntoLibrary_cases package archive s with ⟨d, hres⟩ | ⟨f, u, hres⟩
  · cases hres.symm.trans h
    exact ⟨rfl, fun name => Text.NameSet.mem_insert⟩
  · cases hres.symm.trans h

theorem result_installPackage (h : hasInstaller s) :
    (installPackage package archive).result s = (unpackIntoLibrary package archive).result s := by
  rw [installPackage, result_ofResult, if_pos h]

end Sandbox.Native

/-! ### The installer -/

namespace Stage

open Sandbox (Native)
open Sandbox.Native

variable {inputs : Inputs} {config : Config} {pass : InstallPass} {packages : List String}
  {package archive reason : String} {s t u : Session Native} {f : Failure} {host : Sandbox.HostInfo}

theorem installer_of_entering (h : (entering .native inputs host).result s = (.ok staged, u)) :
    u.state.installer = s.state.installer := by
  obtain ⟨n, w, state, e, e', hbring, -, hinject⟩ := entering_eq_ok moves_resolveModule h
  have hstate : state = s.state := (sameNotes_bringIn _ _).of_result hbring
  obtain ⟨⟨⟩, v, hwrite, hhost⟩ := result_bind_eq_ok.1 hinject
  have hnotes : v.2 = state := (sameNotes_atPath _ _).of_result hwrite
  have hend : u.state = { v.2 with host := some host } := congrArg (fun r => r.2.2) hhost.symm
  rw [hend, hnotes, hstate]

theorem of_bootstrap
    (h : (installAll inputs .bootstrap Sandbox.native.unpackIntoLibrary packages).result s =
      (.ok (), t)) :
    t.state.installer = s.state.installer ∧ (∀ name ∈ s.state.installed, name ∈ t.state.installed) ∧
      ∀ package ∈ packages, normalize package ∈ t.state.installed := by
  induction packages generalizing s with
  | nil =>
    cases h
    exact ⟨rfl, fun _ => id, by simp⟩
  | cons first rest ih =>
    obtain ⟨⟨⟩, u, hfirst, hrest⟩ := result_bind_eq_ok.1 h
    obtain ⟨archive, v, -, hunpack, -, rfl⟩ := installOne_eq_ok hfirst
    obtain ⟨hinstaller, hinstalled⟩ := of_unpackIntoLibrary hunpack
    obtain ⟨hinstaller', hkept, hnoted⟩ := ih hrest
    refine ⟨hinstaller'.trans hinstaller, fun name hname =>
      hkept name ((hinstalled name).2 (.inr hname)), fun package hpackage => ?_⟩
    rcases List.mem_cons.1 hpackage with rfl | hpackage
    · exact hkept _ ((hinstalled _).2 (.inl rfl))
    · exact hnoted package hpackage

theorem hasInstaller_of_bootstrap (hvalid : config.flaw? = none)
    (hs : s.state.installer = normalize config.vendor.installerPackage)
    (h : (installAll inputs .bootstrap Sandbox.native.unpackIntoLibrary
      config.vendor.bootstrapSet).result s = (.ok (), t)) :
    hasInstaller (t.world.disk, t.state) := by
  obtain ⟨hinstaller, -, hnoted⟩ := of_bootstrap h
  have hmem := Config.normalize_installer_mem hvalid
  have hthere := hnoted _ hmem
  rw [Config.Vendoring.normalize_of_mem_bootstrapSet hmem] at hthere
  rw [hasInstaller_iff]
  exact (hinstaller.trans hs).symm ▸ hthere

theorem hasInstaller_of_taking {s t} (hs : hasInstaller s)
    (h : (taking .native pass package archive).result s = (.ok (), t)) : hasInstaller t := by
  have hunpack : (unpackIntoLibrary package archive).result s = (.ok (), t) := by
    cases pass with
    | bootstrap => exact h
    | general => exact (result_installPackage hs).symm.trans h
  obtain ⟨hinstaller, hinstalled⟩ := of_unpackIntoLibrary hunpack
  rw [hasInstaller_iff] at hs ⊢
  rw [hinstaller]
  exact (hinstalled _).2 (.inr hs)

theorem Hands.hasInstaller (h : Hands inputs pass (taking .native pass) packages s package archive t)
    (hs : Native.hasInstaller (s.world.disk, s.state)) :
    Native.hasInstaller (t.world.disk, t.state) := by
  induction h with
  | here => exact hs
  | later installed _ ih =>
    obtain ⟨archive, v, -, htaken, -, rfl⟩ := installOne_eq_ok installed
    have hthere := hasInstaller_of_taking hs htaken
    exact ih hthere

/-! ### What can go wrong -/

/-- The reasons for which a package is not installed when the installer is there. -/
inductive Declined (inputs : Inputs) (package : String) : String → Prop
  /-- The manifest does not list the package. -/
  | absent (h : Json.lookup? package (inputs.depsManifest.packageFiles.getD []) = none) :
    Declined inputs package "not present in the dependency artifact"
  /-- The file of the package is not there. -/
  | missing (filename : String)
    (h : Json.lookup? package (inputs.depsManifest.packageFiles.getD []) = some filename) :
    Declined inputs package ("file " ++
      Path.join (Path.join inputs.depsDir Package.packagesDir) filename ++
        " missing from unpacked dependencies")
  /-- The file of the package cannot be unpacked. -/
  | broken (archive : String) (f : Failure) :
    Declined inputs package (Failure.within (.unpackPackage package archive) f).message

theorem head?_message_unpackPackage (package archive : String) (f : Failure) :
    (Failure.within (.unpackPackage package archive) f).message.toList.head? = some 'u' := by
  have hmessage : (Failure.within (.unpackPackage package archive) f).message =
      "unpack " ++ package ++ " from " ++ archive ++ ": " ++ f.message := rfl
  simp [hmessage]

theorem Declined.ne_unavailable (h : Declined inputs package reason) :
    reason ≠ "installer unavailable after bootstrap pass" := by
  have hstart : reason.toList.head? ≠ some 'i' := by
    cases h with
    | absent => simp
    | missing => simp
    | broken archive f => simp [head?_message_unpackPackage]
  rintro rfl
  simp at hstart

theorem Declined.lookup?_eq_none (h : Declined inputs package reason)
    (hreason : reason = "not present in the dependency artifact") :
    Json.lookup? package (inputs.depsManifest.packageFiles.getD []) = none := by
  have hstart : reason.toList.head? = some 'n' := by simp [hreason]
  cases h with
  | absent h => exact h
  | missing => simp at hstart
  | broken archive f => simp [head?_message_unpackPackage] at hstart

theorem Unfound.declined (h : Unfound inputs d package reason) :
    Declined inputs package reason := by
  cases h with
  | absent h => exact .absent h
  | missing filename h => exact .missing filename h

theorem declined_of_taking {s} (hs : pass = .general → hasInstaller s)
    (h : ((taking .native pass package archive).result s).1 = .error f) :
    Declined inputs package f.message := by
  have hunpack : ((unpackIntoLibrary package archive).result s).1 = .error f := by
    cases pass with
    | bootstrap => exact h
    | general => exact (congrArg Prod.fst (result_installPackage (hs rfl))).symm.trans h
  rcases unpackIntoLibrary_cases package archive s with ⟨d, hres⟩ | ⟨f', t, hres⟩
  · rw [hres] at hunpack
    cases hunpack
  · rw [hres] at hunpack
    cases hunpack
    exact .broken archive f'

theorem declined_of_installOne (hs : pass = .general → hasInstaller (s.world.disk, s.state))
    (h : (installOne inputs pass (taking .native pass) package).result s = (.error f, t)) :
    ∃ reason, f = .install ⟨pass, package, reason⟩ ∧ Declined inputs package reason := by
  rcases result_installOne inputs pass (taking .native pass) package s with
    ⟨filename, -, -, hres⟩ | ⟨reason, hunfound, hres⟩
  · rw [hres] at h
    split at h
    · cases h
    · next htaken =>
      cases h
      obtain ⟨htaken, -⟩ := Session.of_result_onState htaken
      exact ⟨_, rfl, declined_of_taking hs (congrArg Prod.fst htaken)⟩
  · cases h.symm.trans hres
    exact ⟨reason, rfl, hunfound.declined⟩

theorem declined_of_installAll (hs : pass = .general → hasInstaller (s.world.disk, s.state))
    (h : (installAll inputs pass (taking .native pass) packages).result s = (.error f, t)) :
    ∃ package ∈ packages, ∃ reason, f = .install ⟨pass, package, reason⟩ ∧
      Declined inputs package reason := by
  induction packages generalizing s with
  | nil => cases h
  | cons first rest ih =>
    rcases result_bind_eq_error.1 h with hone | ⟨⟨⟩, u, hone, h⟩
    · exact ⟨first, .head _, declined_of_installOne hs hone⟩
    · obtain ⟨archive, v, -, htaken, -, rfl⟩ := installOne_eq_ok hone
      have hthere : pass = .general → hasInstaller (v.world.disk, v.state) :=
        fun hpass => hasInstaller_of_taking (hs hpass) htaken
      obtain ⟨package, hpackage, hdeclined⟩ := ih (s := v.reporting _) hthere h
      exact ⟨package, .tail _ hpackage, hdeclined⟩

theorem cause_of_entering :
    Fails (fun f => ∀ i, f.cause ≠ .install i) (entering .native inputs host) := by
  have hP : Failure.Routine fun f => ∀ i, f.cause ≠ .install i := ⟨nofun, fun _ _ => nofun, fun _ _ => id⟩
  have hbox := Sandbox.native_fails hP
  refine .bind (.onPart (.within hP (Sandbox.fails_bringIn hP hbox _ _) _)) fun copied => ?_
  refine .bind (.onPart (World.fails_report _)) fun _ => ?_
  refine .bind (.onPart (.onPart (Registry.closed_load (OnDisk.closed_routine hP) nofun))) fun registry => ?_
  refine .bind (.onPart (fails_buildTable hP hbox registry)) fun table => ?_
  exact .bind (.onPart (World.fails_report _)) fun _ => .bind (.onPart (hbox.injectHost _)) fun _ => .pure _

/-- Everything that staging an accepted configuration can fail with because of a package: one of a pass
was declined. -/
theorem declined_of_error (hvalid : config.flaw? = none)
    (hs : s.state.installer = normalize config.vendor.installerPackage)
    (h : (run .native inputs config.vendor host).result s = (.error f, t)) (hf : f.cause = .install i) :
    f = .install i ∧ Declined inputs i.package i.reason ∧
      (i.pass = .bootstrap → i.package ∈ config.vendor.bootstrapSet) := by
  rw [run_eq] at h
  rcases result_bind_eq_error.1 h with hentering | ⟨staged, u, hentering, h⟩
  · exact absurd hf (cause_of_entering.of_result hentering i)
  have hu : u.state.installer = normalize config.vendor.installerPackage :=
    (installer_of_entering hentering).trans hs
  rcases result_bind_eq_error.1 h with hboot | ⟨⟨⟩, v, hboot, h⟩
  · have hnone : InstallPass.bootstrap = .general → hasInstaller (u.world.disk, u.state) := nofun
    obtain ⟨package, hpackage, reason, rfl, hdeclined⟩ := declined_of_installAll hnone hboot
    cases hf
    exact ⟨rfl, hdeclined, fun _ => hpackage⟩
  have hthere := hasInstaller_of_bootstrap hvalid hu hboot
  have hrequired : (requireInstaller Sandbox.native config.vendor.installerPackage).result v =
      (.ok (), v) := by
    rw [requireInstaller, result_ofResult]
    exact if_pos hthere
  rw [result_bind_of_ok hrequired] at h
  rcases result_bind_eq_error.1 h with hgeneral | ⟨⟨⟩, x, -, h⟩
  · obtain ⟨package, hpackage, reason, rfl, hdeclined⟩ :=
      declined_of_installAll (fun _ => hthere) hgeneral
    cases hf
    exact ⟨rfl, hdeclined, nofun⟩
  · cases h

/-! ### Accepted configurations -/

/-- Staging with an accepted configuration in a native sandbox for its installer never lacks the
installer. It does not fail for that after the bootstrap pass, and whenever a package is handed over in the
general pass the installer is there, so the package is unpacked. If the dependencies were vendored and
packaged with the configuration, no bootstrap package is absent from them. -/
theorem installer_always_available [Gzip.Encoder] (hvalid : config.flaw? = none) (inputs : Inputs)
    (host : Sandbox.HostInfo) (s : Session Native)
    (hs : s.state.installer = normalize config.vendor.installerPackage) :
    (∀ f t i, (run .native inputs config.vendor host).result s = (.error f, t) →
      f.cause = .install i → Declined inputs i.package i.reason ∧
        i.reason ≠ "installer unavailable after bootstrap pass") ∧
    (∀ staged u package archive v, (entering .native inputs host).result s = (.ok staged, u) →
      HandsOver .native inputs config.vendor u .general package archive v →
      hasInstaller (v.world.disk, v.state) = true ∧
        (installPackage package archive).result (v.world.disk, v.state) =
          (unpackIntoLibrary package archive).result (v.world.disk, v.state)) ∧
    ∀ root, Package.Sourced root config inputs.depsManifest →
      ∀ f t i, (run .native inputs config.vendor host).result s = (.error f, t) →
        f.cause = .install i → i.pass = .bootstrap →
        i.reason ≠ "not present in the dependency artifact" := by
  refine ⟨fun f t i hrun hcause => ?_, fun staged u package archive v hentering hhanded => ?_,
    fun root hsourced f t i hrun hcause hpass hreason => ?_⟩
  · obtain ⟨-, hdeclined, -⟩ := declined_of_error hvalid hs hrun hcause
    exact ⟨hdeclined, hdeclined.ne_unavailable⟩
  · cases hhanded with
    | general installed available handed =>
      have hthere := handed.hasInstaller available
      exact ⟨hthere, result_installPackage hthere⟩
  · obtain ⟨-, hdeclined, hbootstrap⟩ := declined_of_error hvalid hs hrun hcause
    exact hsourced.lookup?_ne_none (hbootstrap hpass) (hdeclined.lookup?_eq_none hreason)

/-! ### A small sandbox -/

open Run (runPlace smallRegistry smallPaths smallFiles smallTree diskWith)

def emptyZip : Bytes :=
  [80, 75, 5, 6] ++ List.replicate 18 0

/-- The small code, and dependencies with a file of each package. -/
def wheelInputs : Inputs where
  codeDir := smallPaths.codeDir
  depsDir := smallPaths.depsDir
  depsManifest := { ArchiveManifest.new {} "deps.tar.gz" [] with
    resolvedPackages := some ["foo", "micropip", "packaging"]
    packageFiles := some [("foo", "f.whl"), ("micropip", "m.whl"), ("packaging", "p.whl")] }

def wheelDisk : Disk where
  entries := (diskWith [] [] [] smallRegistry []).entries ++
    (runPlace ["deps", "packages"], .directory) ::
      ["f.whl", "m.whl", "p.whl"].map fun name =>
        (runPlace ["deps", "packages", name], .file emptyZip)
  home := []

/-- A new native sandbox for the installer, with the module of the small code. -/
def wheelSession : Session Native where
  world := { Run.blank with disk := wheelDisk }
  state := {
    root := "/s", modules := ⟨[("a.m", ⟨fun _ _ => ⟨[], .ok (.complete .null)⟩⟩)]⟩
    installer := "micropip", installed := [], host := none }

set_option maxRecDepth 100000

theorem collect_wheel : wheelDisk.collect smallPaths.codeDir = .ok smallFiles :=
  Run.collect_of_treeFiles rfl

theorem exists_handsOver_wheel : ∃ staged u archive v,
    (entering .native wheelInputs {}).result wheelSession = (.ok staged, u) ∧
      HandsOver .native wheelInputs ({} : Config).vendor u .general "foo" archive v := by
  have hends : ((enteringWith .native wheelInputs {} smallFiles >>= fun _ =>
      installAll wheelInputs .bootstrap (taking .native .bootstrap) ({} : Config).vendor.bootstrapSet >>=
        fun _ => Session.onWorld (World.onDisk (packagePath wheelInputs.depsDir
          (wheelInputs.depsManifest.packageFiles.getD []) .general "foo"))).result
      wheelSession).1.toOption.isSome := by
    decide +kernel
  obtain ⟨archive, v, hres⟩ := exists_of_isSome hends
  obtain ⟨staged, u, hentering, hres⟩ := result_bind_eq_ok.1 hres
  obtain ⟨⟨⟩, u', hbootstrap, hfound⟩ := result_bind_eq_ok.1 hres
  have hentering' := result_entering collect_wheel hentering
  have hinstaller : u.state.installer = normalize ({} : Config).vendor.installerPackage := by
    rw [installer_of_entering hentering']
    decide +kernel
  have hthere := hasInstaller_of_bootstrap (by decide +kernel) hinstaller hbootstrap
  obtain ⟨hfound, -⟩ := Session.of_result_onWorld hfound
  obtain ⟨hfound, -⟩ := World.of_result_onDisk hfound
  have hset : generalSet wheelInputs ({} : Config).vendor = ["foo"] := by decide +kernel
  rcases result_packagePath wheelInputs .general "foo" u'.world.disk with
    ⟨filename, -, -, hfinds⟩ | ⟨reason, hfailed, -⟩
  · have hhanded : Hands wheelInputs .general (taking .native .general) ["foo"] u' "foo" _ u' :=
      .here hfinds
    rw [← hset] at hhanded
    exact ⟨staged, u, _, u', hentering', .general hbootstrap hthere hhanded⟩
  · cases hfailed.symm.trans hfound

/-- With the default configuration the installer is there when the last package is handed over, and what
was vendored and packaged lacks no bootstrap package. -/
theorem installer_available_small :
    ({} : Config).flaw? = none ∧
    (∃ (archive : String) (v : Session Native), hasInstaller (v.world.disk, v.state) = true ∧
      (installPackage "foo" archive).result (v.world.disk, v.state) =
        (unpackIntoLibrary "foo" archive).result (v.world.disk, v.state)) ∧
    ∃ deps, Package.Sourced "/w" {} deps ∧ ∀ f t i, (run .native { wheelInputs with depsManifest := deps }
        ({} : Config).vendor {}).result wheelSession = (.error f, t) →
      f.cause = .install i → i.pass = .bootstrap →
        i.reason ≠ "not present in the dependency artifact" := by
  have hvalid : ({} : Config).flaw? = none := by decide +kernel
  have hs : wheelSession.state.installer =
      normalize ({} : Config).vendor.installerPackage := by decide +kernel
  obtain ⟨staged, u, archive, v, hentering, hhanded⟩ := exists_handsOver_wheel
  obtain ⟨deps, hsourced⟩ := Package.exists_sourced
  exact ⟨hvalid, ⟨archive, v, (installer_always_available hvalid wheelInputs {} wheelSession hs).2.1
    staged u "foo" archive v hentering hhanded⟩, deps, hsourced,
    (installer_always_available hvalid { wheelInputs with depsManifest := deps } {} wheelSession hs).2.2
      "/w" hsourced⟩

end Stage

end AgentChain
