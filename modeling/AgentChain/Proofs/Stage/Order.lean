import AgentChain.Proofs.Stage.Agents
import AgentChain.Proofs.Stage.Installer

/-!
# The order in which packages are installed

Staging comes to a scripted sandbox in three parts. Until the code is brought in and all agents are
resolved, the host is not taken in and no package is installed. Then the bootstrap packages are
unpacked in their order, and if the installer is there after that, it is given the others in the order
of the manifest. A package that is declined ends this at once, and nothing is undone. So the installed
packages begin the list of all packages, and they are the ones that were reported.
-/

namespace AgentChain.Stage

open AgentChain.Action

open Sandbox (Scripted)
open Sandbox (scripted)
open Sandbox.Scripted (hasInstaller)

variable {inputs : Inputs} {vendor : Config.Vendoring} {host : Sandbox.HostInfo} {pass : InstallPass}
  {package : String} {packages : List String} {s t u : Session Scripted}

/-! ### One package -/

theorem result_taking (package : String) {archive : String} {s : Disk × Scripted}
    (hs : pass = .general → hasInstaller s) (hfile : s.1.isFile archive) :
    (taking scripted pass package archive).result s =
      if pass = .general ∧ package ∈ s.2.rejected then
        (.error (.refusal (.incompatibleWheel package)), s)
      else (.ok (), (s.1, { s.2 with installed := s.2.installed ++ [package] })) := by
  have hunpack : (Scripted.unpackIntoLibrary package archive).result s =
      (.ok (), (s.1, { s.2 with installed := s.2.installed ++ [package] })) := by
    rw [Scripted.unpackIntoLibrary, result_ofResult, if_pos hfile]
  cases pass with
  | bootstrap => exact hunpack
  | general =>
    change (Scripted.installPackage package archive).result s = _
    rw [Scripted.installPackage, result_ofResult, hs rfl, hunpack]
    simp

/-- The session after a package was installed in a pass. -/
def withPackage (pass : InstallPass) (s : Session Scripted) (package : String) : Session Scripted :=
  Session.reporting { s with state := { s.state with installed := s.state.installed ++ [package] } }
    (installedEvent pass package)

/-- The reasons for which a package is not installed in a pass when the installer is there. -/
inductive Declines (inputs : Inputs) (pass : InstallPass) (s : Session Scripted) (package : String) :
    String → Prop
  | unfound {reason : String} (h : Unfound inputs s.world.disk package reason) :
    Declines inputs pass s package reason
  | rejected (hpass : pass = .general) (h : package ∈ s.state.rejected) :
    Declines inputs pass s package (Refusal.message (.incompatibleWheel package))

/-- A package has an entry in the manifest, and the installer does not refuse it. -/
def Accepted (inputs : Inputs) (pass : InstallPass) (rejected : List String) (package : String) : Prop :=
  (Json.lookup? package (inputs.depsManifest.packageFiles.getD [])).isSome = true ∧
    (pass = .general → package ∉ rejected)

theorem installOne_cases (inputs : Inputs) (package : String)
    (hs : pass = .general → hasInstaller (s.world.disk, s.state)) :
    (∃ reason, Declines inputs pass s package reason ∧
      (installOne inputs pass (taking .scripted pass) package).result s =
        (.error (.install ⟨pass, package, reason⟩), s)) ∨
    Accepted inputs pass s.state.rejected package ∧
      (installOne inputs pass (taking .scripted pass) package).result s =
        (.ok (), withPackage pass s package) := by
  rcases result_installOne inputs pass (taking .scripted pass) package s with
    ⟨filename, hlisted, hfile, hres⟩ | ⟨reason, hunfound, hres⟩
  · have htaking := result_taking package hs hfile
    split at htaking
    · next hrejected =>
      rw [hres, Session.result_onState htaking]
      exact .inl ⟨_, .rejected hrejected.1 hrejected.2, rfl⟩
    · next hrejected =>
      rw [hres, Session.result_onState htaking]
      exact .inr ⟨⟨by rw [hlisted]; rfl, fun hpass hmem => hrejected ⟨hpass, hmem⟩⟩, rfl⟩
  · exact .inl ⟨reason, .unfound hunfound, hres⟩

/-! ### One pass -/

def installReports (s : Session Scripted) : List Event :=
  s.world.reported.filter fun e => e.name == "package_installed"

theorem foldl_withPackage (pass : InstallPass) (packages : List String) (s : Session Scripted) :
    (packages.foldl (withPackage pass) s).state =
        { s.state with installed := s.state.installed ++ packages } ∧
      (packages.foldl (withPackage pass) s).world.clock = s.world.clock ∧
      installReports (packages.foldl (withPackage pass) s) = installReports s ++
        packages.map fun p => { installedEvent pass p with timestamp := s.world.clock.millis } := by
  induction packages generalizing s with
  | nil => simp
  | cons package packages ih =>
    obtain ⟨hstate, hclock, hreports⟩ := ih (withPackage pass s package)
    rw [List.foldl_cons, hstate, hclock, hreports]
    refine ⟨?_, rfl, ?_⟩
    · simp [withPackage, Session.reporting]
    · simp only [installReports, withPackage, Session.reporting, World.reporting, List.filter_append,
        List.append_assoc, List.map_cons]
      rfl

theorem installAll_cases (inputs : Inputs) (pass : InstallPass) (packages : List String)
    (hs : pass = .general → hasInstaller (s.world.disk, s.state)) :
    (∃ done package rest reason, packages = done ++ package :: rest ∧
      (∀ p ∈ done, Accepted inputs pass s.state.rejected p) ∧
      Declines inputs pass (done.foldl (withPackage pass) s) package reason ∧
      (installAll inputs pass (taking .scripted pass) packages).result s =
        (.error (.install ⟨pass, package, reason⟩), done.foldl (withPackage pass) s)) ∨
    (∀ p ∈ packages, Accepted inputs pass s.state.rejected p) ∧
      (installAll inputs pass (taking .scripted pass) packages).result s =
        (.ok (), packages.foldl (withPackage pass) s) := by
  induction packages generalizing s with
  | nil => exact .inr ⟨by simp, rfl⟩
  | cons first packages ih =>
    rw [installAll]
    rcases installOne_cases inputs first hs with
      ⟨reason, hdeclines, hone⟩ | ⟨haccepted, hone⟩
    · rw [result_bind_of_error hone]
      exact .inl ⟨[], first, packages, reason, rfl, by simp, hdeclines, rfl⟩
    · have hs' : pass = .general → hasInstaller
          ((withPackage pass s first).world.disk, (withPackage pass s first).state) := by
        intro hpass
        have hthere := hs hpass
        simp only [hasInstaller, List.contains_iff_mem] at hthere ⊢
        exact List.mem_append_left _ hthere
      rw [result_bind_of_ok hone]
      rcases ih hs' with ⟨done, package, rest, reason, rfl, hdone, hdeclines, hres⟩ | ⟨hall, hres⟩
      · exact .inl ⟨first :: done, package, rest, reason, rfl,
          List.forall_mem_cons.2 ⟨haccepted, hdone⟩, hdeclines, hres⟩
      · exact .inr ⟨List.forall_mem_cons.2 ⟨haccepted, hall⟩, hres⟩

/-! ### Before the host is taken in -/

/-- Between two sessions files came into the sandbox and events were reported, none of them about an
installed package. -/
structure Unstaged (s t : Session Scripted) : Prop where
  state : t.state = { s.state with memory := t.state.memory }
  clock : t.world.clock = s.world.clock
  reports : installReports t = installReports s

theorem Unstaged.frame : Frame Unstaged where
  refl _ := ⟨rfl, rfl, rfl⟩
  trans h h' := ⟨by rw [h'.state, h.state], h'.clock.trans h.clock, h'.reports.trans h.reports⟩

theorem unstaged_onState (hx : Moves (fun s t => t.2 = { s.2 with memory := t.2.memory }) x) :
    Moves Unstaged (Session.onState x) := by
  intro s
  rw [Session.onState, result_onPart]
  exact ⟨hx (s.world.disk, s.state), rfl, rfl⟩

theorem unstaged_onDisk (x : Action Disk α) :
    Moves Unstaged (Session.onWorld (World.onDisk x) : Action (Session Scripted) α) :=
  fun _ => ⟨rfl, rfl, rfl⟩

theorem unstaged_report (he : e.name ≠ "package_installed") :
    Moves Unstaged (Session.report e : Action (Session Scripted) Unit) := by
  intro s
  refine ⟨rfl, rfl, ?_⟩
  simp [installReports, Session.reporting, World.reporting, he]

theorem unstaged_mirroring (inputs : Inputs) : Moves Unstaged (mirroring .scripted inputs) := by
  have hframe : Frame fun s t : Disk × Scripted => t.2 = { s.2 with memory := t.2.memory } :=
    ⟨fun _ => rfl, fun h h' => by rw [h', h]⟩
  refine Unstaged.frame.bind (unstaged_onState (Frame.within ?_ _)) fun _ =>
    unstaged_report (show "code_mirrored" ≠ "package_installed" by decide)
  exact Sandbox.composes_bringIn ⟨hframe.pure, hframe.bind⟩ (fun _ _ => rfl) (fun _ => rfl)
    (fun _ _ => rfl) (fun _ _ _ => rfl) _

theorem moves_resolveModule_scripted (path : String) : Moves Eq (scripted.resolveModule path) :=
  fun _ => rfl

theorem unstaged_resolving (inputs : Inputs) : Moves Unstaged (resolving .scripted inputs) := by
  refine Unstaged.frame.bind (unstaged_onDisk _) fun registry => ?_
  refine Unstaged.frame.bind (unstaged_onState fun s => ?_) fun table => ?_
  · rw [← moves_buildTable moves_resolveModule_scripted registry s]
  · exact Unstaged.frame.bind
      (unstaged_report (show "agents_resolved" ≠ "package_installed" by decide)) fun _ =>
        Unstaged.frame.pure _

theorem of_resolving (h : (resolving .scripted inputs).result s = (.ok staged, t)) :
    (∃ d, (Registry.load (Path.join inputs.codeDir Registry.fileName)).result s.world.disk =
      (.ok staged.registry, d)) ∧ ∀ a ∈ staged.registry.agents, a.modulePath ∈ s.state.modules := by
  obtain ⟨registry, s₁, hload, h⟩ := result_bind_eq_ok.1 h
  obtain ⟨table, s₂, htable, h⟩ := result_bind_eq_ok.1 h
  obtain ⟨⟨⟩, s₃, -, h⟩ := result_bind_eq_ok.1 h
  cases h
  have hstate : s₁.state.modules = s.state.modules := by
    rw [((unstaged_onDisk _).of_result hload).state]
  obtain ⟨hload, -⟩ := Session.of_result_onWorld hload
  obtain ⟨htable, -⟩ := Session.of_result_onState htable
  refine ⟨⟨_, (World.of_result_onDisk hload).1⟩, fun a ha => ?_⟩
  have hresolves : ∀ {agents s t}, Resolves scripted agents s t →
      ∀ a ∈ agents, a.modulePath ∈ s.2.modules := by
    intro agents s t h
    induction h with
    | nil => simp
    | cons first _ ih =>
      obtain rfl := (moves_resolveModule_scripted _).of_result first
      refine List.forall_mem_cons.2 ⟨?_, ih⟩
      by_contra hnot
      change (if _ then _ else _, _) = _ at first
      rw [if_neg (by simpa using hnot)] at first
      cases first
  rcases buildTable_cases scripted registry (s₁.world.disk, s₁.state) with
    ⟨_, _, _, _, _, _, _, _, _, hres⟩ | ⟨_, hall, _⟩
  · cases hres.symm.trans htable
  · exact hstate ▸ hresolves hall a ha

/-! ### Staging -/

def passOf (vendor : Config.Vendoring) (package : String) : InstallPass :=
  if package ∈ vendor.bootstrapSet then .bootstrap else .general

/-- The host is taken in, and packages are installed and reported in their order. -/
structure Installs (inputs : Inputs) (vendor : Config.Vendoring) (s : Session Scripted)
    (packages : List String) (t : Session Scripted) : Prop where
  installed : t.state.installed = s.state.installed ++ packages
  hostInjected : t.state.hostInjected = true
  reports : installReports t = installReports s ++ packages.map fun p =>
    { installedEvent (passOf vendor p) p with timestamp := s.world.clock.millis }
  accepted : ∀ p ∈ packages, Accepted inputs (passOf vendor p) s.state.rejected p
  rejected : t.state.rejected = s.state.rejected
  clock : t.world.clock = s.world.clock

/-- Everything that staging can come to: it is refused before the host is taken in, a package is
declined after all before it were installed, the installer is not there after the bootstrap pass, or
all packages are installed. -/
inductive Ends (inputs : Inputs) (vendor : Config.Vendoring) (host : Sandbox.HostInfo)
    (s : Session Scripted) : Except Failure Staged × Session Scripted → Prop
  | refused {f : Failure} {t : Session Scripted}
    (refused : (entering .scripted inputs host).result s = (.error f, t)) (unstaged : Unstaged s t) :
    Ends inputs vendor host s (.error f, t)
  | declined {done rest : List String} {package reason : String} {t : Session Scripted}
    (order : vendor.bootstrapSet ++ generalSet inputs vendor = done ++ package :: rest)
    (installs : Installs inputs vendor s done t)
    (declines : Declines inputs (passOf vendor package) t package reason) :
    Ends inputs vendor host s (.error (.install ⟨passOf vendor package, package, reason⟩), t)
  | unavailable {t : Session Scripted} (installs : Installs inputs vendor s vendor.bootstrapSet t)
    (missing : hasInstaller (t.world.disk, t.state) = false) :
    Ends inputs vendor host s (.error (.install ⟨.general,
      PackageName.normalize vendor.installerPackage, "installer unavailable after bootstrap pass"⟩), t)
  | staged {staged : Staged} {t : Session Scripted}
    (installs : Installs inputs vendor s (vendor.bootstrapSet ++ generalSet inputs vendor) t) :
    Ends inputs vendor host s (.ok staged, t)

theorem Installs.append (h : Installs inputs vendor s done u)
    (hpass : ∀ p ∈ packages, passOf vendor p = pass)
    (haccepted : ∀ p ∈ packages, Accepted inputs pass u.state.rejected p) :
    Installs inputs vendor s (done ++ packages) (packages.foldl (withPackage pass) u) := by
  obtain ⟨hstate, hclock, hreports⟩ := foldl_withPackage pass packages u
  refine ⟨?_, ?_, ?_, ?_, ?_, hclock.trans h.clock⟩
  · rw [hstate, h.installed, List.append_assoc]
  · rw [hstate]
    exact h.hostInjected
  · rw [hreports, h.reports, h.clock, List.map_append, List.append_assoc]
    congr 2
    exact List.map_congr_left fun p hp => by rw [hpass p hp]
  · refine List.forall_mem_append.2 ⟨h.accepted, fun p hp => ?_⟩
    rw [hpass p hp, ← h.rejected]
    exact haccepted p hp
  · rw [hstate]
    exact h.rejected

theorem entering_cases (inputs : Inputs) (vendor : Config.Vendoring) (host : Sandbox.HostInfo)
    (s : Session Scripted) :
    (∃ f t, (entering .scripted inputs host).result s = (.error f, t) ∧ Unstaged s t) ∨
      ∃ staged v w t, (mirroring .scripted inputs).result s = (.ok (), v) ∧
        (resolving .scripted inputs).result v = (.ok staged, w) ∧
        (entering .scripted inputs host).result s = (.ok staged, t) ∧ Installs inputs vendor s [] t := by
  rw [entering_eq]
  rcases hmirror : (mirroring .scripted inputs).result s with ⟨f | ⟨⟩, v⟩
  · exact .inl ⟨f, v, result_bind_of_error hmirror _, (unstaged_mirroring inputs).of_result hmirror⟩
  have hv := (unstaged_mirroring inputs).of_result hmirror
  rw [result_bind_of_ok hmirror]
  rcases hresolve : (resolving .scripted inputs).result v with ⟨f | staged, w⟩
  · exact .inl ⟨f, w, result_bind_of_error hresolve _,
      Unstaged.frame.trans hv ((unstaged_resolving inputs).of_result hresolve)⟩
  have hw := Unstaged.frame.trans hv ((unstaged_resolving inputs).of_result hresolve)
  rw [result_bind_of_ok hresolve]
  have hinstalled : w.state.installed = s.state.installed := by rw [hw.state]
  have hrejected : w.state.rejected = s.state.rejected := by rw [hw.state]
  refine .inr ⟨staged, v, w, _, rfl, hresolve, rfl, ?_, rfl, ?_, by simp, hrejected, hw.clock⟩
  · rw [List.append_nil]
    exact hinstalled
  · rw [List.map_nil, List.append_nil]
    exact hw.reports

/-- A scripted sandbox that takes in packages in its own way once the installer is there. -/
def installingBy (take : (package archive : String) → Action (Disk × Scripted) Unit) :
    Sandbox Scripted :=
  { scripted with installPackage := take }

theorem passOf_generalSet (hp : p ∈ generalSet inputs vendor) : passOf vendor p = .general :=
  if_neg (by simpa using (List.mem_filter.1 hp).2)

theorem bootstrap_cases (host : Sandbox.HostInfo) (staged : Staged) (h : Installs inputs vendor s [] u) :
    (∃ r, Ends inputs vendor host s r ∧
      ∀ take, (installing (installingBy take) inputs vendor staged).result u = r) ∨
    ∃ v, Installs inputs vendor s vendor.bootstrapSet v ∧
      hasInstaller (v.world.disk, v.state) ∧
      ∀ take, (installing (installingBy take) inputs vendor staged).result u =
        (installAll inputs .general take (generalSet inputs vendor) >>= fun _ => pure staged).result v := by
  have hpass : ∀ p ∈ vendor.bootstrapSet, passOf vendor p = .bootstrap := fun p hp => if_pos hp
  rcases installAll_cases (s := u) inputs .bootstrap vendor.bootstrapSet nofun with
    ⟨done, package, rest, reason, hsplit, hdone, hdeclines, hres⟩ | ⟨hall, hres⟩
  · rw [hsplit] at hpass
    have hpackage := hpass package (by simp)
    have hinstalls := h.append (fun p hp => hpass p (List.mem_append_left _ hp)) hdone
    rw [List.nil_append] at hinstalls
    have horder : vendor.bootstrapSet ++ generalSet inputs vendor =
        done ++ package :: (rest ++ generalSet inputs vendor) := by
      rw [hsplit, List.append_assoc, List.cons_append]
    have hends : Ends inputs vendor host s _ :=
      .declined horder hinstalls (by rw [hpackage]; exact hdeclines)
    rw [hpackage] at hends
    exact .inl ⟨_, hends, fun take => result_bind_of_error hres _⟩
  have hv := h.append hpass hall
  rw [List.nil_append] at hv
  generalize vendor.bootstrapSet.foldl (withPackage .bootstrap) u = v at hres hv
  by_cases hthere : hasInstaller (v.world.disk, v.state)
  · have hrequire (take : (package archive : String) → Action (Disk × Scripted) Unit) :
        (requireInstaller (installingBy take) vendor.installerPackage).result v = (.ok (), v) :=
      if_pos hthere
    exact .inr ⟨v, hv, hthere, fun take =>
      (result_bind_of_ok hres _).trans (result_bind_of_ok (hrequire take) _)⟩
  · have hrequire (take : (package archive : String) → Action (Disk × Scripted) Unit) :
        (requireInstaller (installingBy take) vendor.installerPackage).result v =
          (.error (.install ⟨.general, PackageName.normalize vendor.installerPackage,
            "installer unavailable after bootstrap pass"⟩), v) :=
      if_neg hthere
    exact .inl ⟨_, .unavailable hv (by simpa using hthere), fun take =>
      (result_bind_of_ok hres _).trans (result_bind_of_error (hrequire take) _)⟩

theorem ends_of_general (h : Installs inputs vendor s vendor.bootstrapSet u)
    (hthere : hasInstaller (u.world.disk, u.state)) :
    Ends inputs vendor host s ((installAll inputs .general (taking .scripted .general)
      (generalSet inputs vendor) >>= fun _ => pure staged).result u) := by
  have hpass : ∀ p ∈ generalSet inputs vendor, passOf vendor p = .general := fun _ => passOf_generalSet
  rcases installAll_cases (s := u) inputs .general (generalSet inputs vendor) (fun _ => hthere) with
    ⟨done, package, rest, reason, hsplit, hdone, hdeclines, hres⟩ | ⟨hall, hres⟩
  · rw [hsplit] at hpass
    have hpackage := hpass package (by simp)
    have horder : vendor.bootstrapSet ++ generalSet inputs vendor =
        (vendor.bootstrapSet ++ done) ++ package :: rest := by
      rw [hsplit, List.append_assoc]
    have hends : Ends inputs vendor host s _ :=
      .declined horder (h.append (fun p hp => hpass p (List.mem_append_left _ hp)) hdone)
        (by rw [hpackage]; exact hdeclines)
    rw [hpackage] at hends
    rw [result_bind_of_error hres]
    exact hends
  · rw [result_bind_of_ok hres]
    exact .staged (h.append hpass hall)

theorem entering_installingBy (take : (package archive : String) → Action (Disk × Scripted) Unit) :
    entering (installingBy take) inputs host = entering .scripted inputs host := by
  have hcreate : (installingBy take).createDirectories = scripted.createDirectories := rfl
  have hwrite : (installingBy take).writeFile = scripted.writeFile := rfl
  have hresolve : (installingBy take).resolveModule = scripted.resolveModule := rfl
  have hinject : (installingBy take).injectHost = scripted.injectHost := rfl
  have hfiles (dest : String) (files : List Disk.Collected) :
      (installingBy take).bringInFiles dest files = scripted.bringInFiles dest files := by
    induction files with
    | nil => rfl
    | cons file files ih => rw [Sandbox.bringInFiles, Sandbox.bringInFiles, ih, hcreate, hwrite]
  have hagents (agents : List Agent.Descriptor) : ∀ table,
      resolveAgents (installingBy take) agents table = resolveAgents .scripted agents table := by
    induction agents with
    | nil => exact fun _ => rfl
    | cons agent agents ih =>
      intro table
      rw [resolveAgents, resolveAgents, hresolve]
      simp only [ih]
  simp only [entering, admitting, Sandbox.bringIn, buildTable, hfiles, hagents, hcreate, hinject]

/-- Staging installs the bootstrap packages and then the other packages of the manifest, in this order.
It ends with all of them, or before the host is taken in with none of them, or where one is declined
with those before it, or where the installer is not there after the bootstrap packages. It is refused
if the registry cannot be loaded or one of its modules is not in the sandbox. What the installer does
matters only once all bootstrap packages are unpacked and it is there. -/
theorem staging_installs_in_order (inputs : Inputs) (vendor : Config.Vendoring)
    (host : Sandbox.HostInfo) (s : Session Scripted) :
    (vendor.bootstrapSet.Pairwise (· < ·) ∧ ∀ p, p ∈ vendor.bootstrapSet ↔
      ∃ written ∈ vendor.bootstrapPackages, PackageName.normalize written = p) ∧
    Ends inputs vendor host s ((run .scripted inputs vendor host).result s) ∧
    (∀ v, (mirroring .scripted inputs).result s = (.ok (), v) →
      (∀ registry d, (Registry.load (Path.join inputs.codeDir Registry.fileName)).result v.world.disk =
        (.ok registry, d) → ∃ a ∈ registry.agents, a.modulePath ∉ s.state.modules) →
      ∃ f t, (run .scripted inputs vendor host).result s = (.error f, t) ∧ Unstaged s t) ∧
    ((∀ take, (run (installingBy take) inputs vendor host).result s =
        (run .scripted inputs vendor host).result s) ∨
      ∃ staged v, Installs inputs vendor s vendor.bootstrapSet v ∧
        hasInstaller (v.world.disk, v.state) = true ∧
        ∀ take, (run (installingBy take) inputs vendor host).result s =
          (installAll inputs .general take (generalSet inputs vendor) >>= fun _ =>
            pure staged).result v) := by
  have hset : ∀ p, p ∈ vendor.bootstrapSet ↔
      ∃ written ∈ vendor.bootstrapPackages, PackageName.normalize written = p := by
    simp [Config.Vendoring.bootstrapSet, Text.NameSet.mem_ofList]
  refine ⟨⟨Text.NameSet.pairwise_lt_ofList _, hset⟩, ?_⟩
  simp only [run_eq, entering_installingBy]
  rcases entering_cases inputs vendor host s with
    ⟨f, t, hrefused, hunstaged⟩ | ⟨staged, v, w, u, hmirror, hresolve, hentered, hu⟩
  · simp only [result_bind_of_error hrefused]
    exact ⟨.refused hrefused hunstaged, fun _ _ _ => ⟨f, t, rfl, hunstaged⟩, .inl fun _ => trivial⟩
  simp only [result_bind_of_ok hentered]
  have hscripted : scripted = installingBy (taking .scripted .general) := rfl
  refine ⟨?_, fun v' hmirror' hrefused => ?_, ?_⟩
  · rcases bootstrap_cases host staged hu with
      ⟨r, hends, hres⟩ | ⟨v, hv, hthere, hres⟩
    · rw [hscripted, hres]
      exact hends
    · rw [hscripted, hres]
      exact ends_of_general hv hthere
  · cases hmirror.symm.trans hmirror'
    obtain ⟨⟨d, hload⟩, hall⟩ := of_resolving hresolve
    obtain ⟨a, ha, hnot⟩ := hrefused _ d hload
    have hstate := ((unstaged_mirroring inputs).of_result hmirror).state
    rw [hstate] at hall
    exact (hnot (hall a ha)).elim
  · rcases bootstrap_cases host staged hu with
      ⟨r, -, hres⟩ | ⟨v, hv, hthere, hres⟩
    · exact .inl fun take => by rw [hres, hscripted, hres]
    · exact .inr ⟨staged, v, hv, hthere, hres⟩

end AgentChain.Stage
