import AgentChain.Proofs.Sandbox.View
import AgentChain.Proofs.Verify
import AgentChain.Stage

/-!
# Entering a sandbox

Staging first enters the sandbox and then installs the packages in it. To enter it, the code is
brought in, every agent is resolved to its module, and the host is taken in; of these only the first
and the last change the sandbox. Two events are reported on the way, and their lines go to the event
logs. A log that is there before does not move into a directory that is filled later on, so these
lines leave the files below such a directory alone.
-/

namespace AgentChain

open Sandbox (appRoot)
open Session (onState onWorld)

/-! ### Event logs elsewhere -/

namespace Disk

variable {d d' : Disk} {S : Place} {path : String}

/-- A path leads to a directory, or to a file that is not below a given place. -/
def Beyond (S : Place) (d : Disk) (path : String) : Prop :=
  ∃ p e, d.resolve true path = .ok (.present p e) ∧ (e = .directory ∨ ¬ inside S p = true)

theorem Sound.beyond_of_exists (hd : d.Sound) (hempty : ∀ q, inside S q → d.get? q = none)
    (h : d.exists? path) : Beyond S d path := by
  rw [exists?, follow?] at h
  rcases hres : d.resolve true path with fault | ⟨p, e⟩ | ⟨p, b⟩
  · simp [hres] at h
  · refine ⟨p, e, hres, ?_⟩
    by_cases he : e = .directory
    · exact .inl he
    · refine .inr fun hin => ?_
      have hget := hd.get?_of_resolve hres he
      rw [hempty p hin] at hget
      cases hget
  · simp [hres] at h

theorem Workplace.grows (h : Workplace base S d) (hd' : d'.Sound)
    (hg : d.Grows d') : Workplace base S d' where
  sound := hd'
  leads := hg.leadsTo h.leads
  directory := hg.directory S h.directory
  plain q hq := (h.plain q hq).grows hg

/-- Directories and links are kept, and what was a file outside of a place still is one. -/
structure Leaves (S : Place) (d d' : Disk) : Prop where
  grows : d.Grows d'
  file : ∀ p c, ¬ inside S p = true → d.get? p = some (.file c) → ∃ c', d'.get? p = some (.file c')

theorem Beyond.leaves (h : Beyond S d path) (hd : d.Sound) (hl : Leaves S d d') :
    Beyond S d' path := by
  obtain ⟨p, e, hres, he⟩ := h
  cases e with
  | directory =>
    have hleads := (leadsTo_of_resolve hres).mono hl.grows.keeps hl.grows.home
    exact ⟨p, .directory, hleads.resolve_eq (ne_nil_of_resolve hres) (followable_of_resolve hres),
      .inl rfl⟩
  | file c =>
    have hout := he.resolve_left (by simp)
    obtain ⟨c', hc'⟩ := hl.file p c hout (hd.get?_of_resolve hres (by simp))
    exact ⟨p, .file c', hl.grows.keeps.resolve_of_file hl.grows.home hc' hres (.inr ⟨c, rfl⟩),
      .inr hout⟩
  | symlink t =>
    have hne := ne_nil_of_resolve hres
    rw [resolve_eq hne (followable_of_resolve hres)] at hres
    exact absurd rfl (ne_symlink_of_walkLinks hres)

theorem Beyond.append (h : Beyond S d path) (hd : d.Sound)
    (happend : d.append path line = .ok d') : d'.Sound ∧ Leaves S d d' ∧
      ∀ q, inside S q → d.Alone q → d'.get? q = d.get? q := by
  obtain ⟨p, c, hp, rfl⟩ := append_eq_ok happend
  have hw := hd.of_writePlace hp
  have hne := ne_nil_of_vacant_or_file hw
  have hout : ¬ inside S p := by
    obtain ⟨q, e, hres, he⟩ := h
    rw [writePlace, hres] at hp
    cases e with
    | file c' =>
      cases hp
      exact he.resolve_left (by simp)
    | directory => cases hp
    | symlink t => cases hp
  refine ⟨hd.fill hw, ⟨hd.grows_fill hw, fun q c' _ hq => ?_⟩, fun q hq halone => ?_⟩
  · rcases hd.get?_fill_cases (c := c) hne (hw.imp Vacant.free id) q with heq | ⟨heq, -⟩
    · exact ⟨c', heq.trans hq⟩
    · exact ⟨c, heq⟩
  · have hqp : q ≠ p := by
      rintro rfl
      exact hout hq
    rw [get?_fill hne, if_neg hqp, if_neg]
    rintro ⟨-, ht⟩
    rcases areTwins_iff.1 ht with heq | ⟨group, hmem, -, hgroup⟩
    · exact hqp heq.symm
    · exact halone group hmem hgroup

end Disk

namespace World

open Disk

variable {w : World} {base : String} {S : Place}

/-- A world with a workplace, whose event logs are elsewhere. -/
structure Hosts (base : String) (S : Place) (w : World) : Prop where
  workplace : Workplace base S w.disk
  logs : ∀ path ∈ w.logs, Beyond S w.disk path

theorem Hosts.reporting (h : Hosts base S w) (e : Event) : Hosts base S (w.reporting e) ∧
    ∀ k, (w.reporting e).disk.get? (S ++ k) = w.disk.get? (S ++ k) := by
  obtain ⟨hworkplace, hlogs, hsame⟩ := moves_reporting (Action.frame_keeps fun d =>
    Workplace base S d ∧ (∀ path ∈ w.logs, Beyond S d path) ∧
      ∀ q, inside S q → d.get? q = w.disk.get? q) w e
    (fun path hpath d d' happend ⟨h, hlogs, hsame⟩ => by
      obtain ⟨hd', hleaves, hkept⟩ := (hlogs path hpath).append h.sound happend
      exact ⟨h.grows hd' hleaves.grows, fun other hother => (hlogs other hother).leaves h.sound hleaves,
        fun q hq => (hkept q hq (h.plain q hq).alone).trans (hsame q hq)⟩)
    ⟨h.workplace, h.logs, fun _ _ => rfl⟩
  refine ⟨⟨hworkplace, hlogs⟩, fun k => ?_⟩
  rcases List.eq_nil_or_concat' k with rfl | ⟨init, last, rfl⟩
  · rw [List.append_nil, h.workplace.directory]
    exact hworkplace.directory
  · exact hsame _ (inside_append (by simp))

end World

/-! ### The two parts of staging -/

namespace Stage

open AgentChain.Action

variable {S : Type} {box : Sandbox S} {inputs : Inputs} {host : Sandbox.HostInfo}
  {s t u : Session S} {staged : Staged}

/-- Resolve the agents of the code that was brought in, and take in the host. -/
def admitting (box : Sandbox S) (inputs : Inputs) (host : Sandbox.HostInfo) (copied : Nat) :
    Action (Session S) Staged := do
  Session.report ((Event.make "stage" .info "code_mirrored").field "files" (.ofCount copied))
  let registry ← onWorld
    (World.onDisk (Registry.load (Path.join inputs.codeDir Registry.fileName)))
  let table ← onState (buildTable box registry)
  Session.report ((Event.make "stage" .info "agents_resolved").field "agents"
    (.ofTexts (table.map (·.1))) |>.field "root" (.string registry.rootAgent))
  onState (box.injectHost host)
  return { registry, table }

/-- Bring the code into a sandbox, resolve the agents and take in the host. -/
def entering (box : Sandbox S) (inputs : Inputs) (host : Sandbox.HostInfo) :
    Action (Session S) Staged := do
  let copied ← onState ((box.bringIn inputs.codeDir appRoot).within
    (.bringIn inputs.codeDir appRoot))
  admitting box inputs host copied

/-- Enter a sandbox with files of the code that were found before. -/
def enteringWith (box : Sandbox S) (inputs : Inputs) (host : Sandbox.HostInfo)
    (files : List Disk.Collected) : Action (Session S) Staged := do
  onState (do
    box.createDirectories appRoot
    box.bringInFiles appRoot files)
  admitting box inputs host files.length

/-- Install the packages, those of the bootstrap pass first. -/
def installing (box : Sandbox S) (inputs : Inputs) (vendor : Config.Vendoring) (staged : Staged) :
    Action (Session S) Staged := do
  installAll inputs .bootstrap box.unpackIntoLibrary vendor.bootstrapSet
  requireInstaller box vendor.installerPackage
  installAll inputs .general box.installPackage
    ((inputs.depsManifest.resolvedPackages.getD []).filter fun package =>
      !vendor.bootstrapSet.contains package)
  return staged

theorem run_eq (box : Sandbox S) (inputs : Inputs) (vendor : Config.Vendoring)
    (host : Sandbox.HostInfo) :
    run box inputs vendor host = entering box inputs host >>= installing box inputs vendor := by
  simp only [run, entering, admitting, installing, bind_assoc, pure_bind]

theorem moves_buildTable (hresolve : ∀ path, Moves Eq (box.resolveModule path))
    (registry : Registry) : Moves Eq (buildTable box registry) := by
  have hagents : ∀ agents table, Moves Eq (resolveAgents box agents table) := by
    intro agents
    induction agents with
    | nil => exact fun table => frame_eq.pure table
    | cons agent agents ih =>
      exact fun table => frame_eq.bind (Frame.within (hresolve _) _) fun _ => ih _
  exact hagents registry.agents []

/-- Entering the sandbox with the files of the code succeeds as it does when they are looked for. -/
theorem result_entering (hfiles : s.world.disk.collect inputs.codeDir = .ok files)
    (h : (enteringWith box inputs host files).result s = (.ok staged, u)) :
    (entering box inputs host).result s = (.ok staged, u) := by
  rw [enteringWith] at h
  obtain ⟨⟨⟩, s₁, hlay, hadmit⟩ := result_bind_eq_ok.1 h
  obtain ⟨hlay, hworld⟩ := Session.of_result_onState hlay
  obtain ⟨⟨⟩, t, hmake, hlay⟩ := result_bind_eq_ok.1 hlay
  have hlisted : (Sandbox.onDisk (OnDisk.collect inputs.codeDir)).result (s.world.disk, s.state) =
      (.ok files, (s.world.disk, s.state)) := Sandbox.result_onDisk_read.2 ⟨hfiles, rfl⟩
  have hbring : (box.bringIn inputs.codeDir appRoot).result (s.world.disk, s.state) =
      (.ok files.length, (s₁.world.disk, s₁.state)) := by
    rw [Sandbox.bringIn, result_bind_of_ok hlisted, result_bind_of_ok hmake, result_bind_of_ok hlay]
    rfl
  rw [entering, result_bind_of_ok (Session.result_onState (result_within_eq_ok.2 hbring)), ← hworld]
  exact hadmit

/-- Bring the code into a sandbox and report it. The registry is loaded next. -/
def mirroring (box : Sandbox S) (inputs : Inputs) : Action (Session S) Unit := do
  let copied ← onState ((box.bringIn inputs.codeDir appRoot).within
    (.bringIn inputs.codeDir appRoot))
  Session.report ((Event.make "stage" .info "code_mirrored").field "files" (.ofCount copied))

/-- Load the registry and resolve its agents. The host is taken in next. -/
def resolving (box : Sandbox S) (inputs : Inputs) : Action (Session S) Staged := do
  let registry ← onWorld
    (World.onDisk (Registry.load (Path.join inputs.codeDir Registry.fileName)))
  let table ← onState (buildTable box registry)
  Session.report ((Event.make "stage" .info "agents_resolved").field "agents"
    (.ofTexts (table.map (·.1))) |>.field "root" (.string registry.rootAgent))
  return { registry, table }

theorem entering_eq (box : Sandbox S) (inputs : Inputs) (host : Sandbox.HostInfo) :
    entering box inputs host = mirroring box inputs >>= fun _ => resolving box inputs >>= fun staged =>
      onState (box.injectHost host) >>= fun _ => pure staged := by
  simp only [entering, admitting, mirroring, resolving, bind_assoc, pure_bind]

theorem mirroring_eq_ok (h : (mirroring box inputs).result s = (.ok (), t)) :
    ∃ (n : Nat) (u : Session S) (e : Event),
      (box.bringIn inputs.codeDir appRoot).result (s.world.disk, s.state) =
        (.ok n, (u.world.disk, u.state)) ∧
      u.world = s.world.on u.world.disk ∧ t = u.reporting e := by
  rw [mirroring] at h
  obtain ⟨n, u, hbring, h⟩ := result_bind_eq_ok.1 h
  rw [Session.result_report] at h
  obtain ⟨hbring, hworld⟩ := Session.of_result_onState hbring
  exact ⟨n, u, _, result_within_eq_ok.1 hbring, hworld, (Prod.mk.inj h).2.symm⟩

section

variable (hresolve : ∀ path, Moves Eq (box.resolveModule path))
  (h : (entering box inputs host).result s = (.ok staged, u))
include hresolve h

theorem exists_mirroring :
    ∃ (t : Session S) (e : Event), (mirroring box inputs).result s = (.ok (), t) ∧
      (box.injectHost host).result ((t.world.reporting e).disk, t.state) =
        (.ok (), (u.world.disk, u.state)) ∧
      u.world = { t.world.reporting e with disk := u.world.disk } := by
  rw [entering_eq] at h
  obtain ⟨⟨⟩, t, hmirrored, h⟩ := result_bind_eq_ok.1 h
  obtain ⟨resolved, t₃, hresolving, h⟩ := result_bind_eq_ok.1 h
  obtain ⟨⟨⟩, t₄, hinject, h⟩ := result_bind_eq_ok.1 h
  cases h
  obtain ⟨registry, t₁, hload, hresolving⟩ := result_bind_eq_ok.1 hresolving
  obtain ⟨table, t₂, htable, hresolving⟩ := result_bind_eq_ok.1 hresolving
  obtain ⟨⟨⟩, t₅, hresolved, hresolving⟩ := result_bind_eq_ok.1 hresolving
  cases hresolving
  obtain rfl := (moves_onPart (fun _ => rfl) (moves_onPart (fun _ => rfl)
    (Registry.closed_load (OnDisk.closed_still frame_eq) fun _ => trivial))).of_result hload
  obtain rfl := (moves_onPart (fun _ => rfl) (moves_buildTable hresolve registry)).of_result htable
  rw [Session.result_report] at hresolved
  cases hresolved
  obtain ⟨hinject, hworld⟩ := Session.of_result_onState hinject
  exact ⟨t, _, hmirrored, hinject, hworld⟩

/-- What entering the sandbox does to it: the code is brought in, two events are reported, and the
host is taken in. -/
theorem entering_eq_ok : ∃ (n : Nat) (w : World) (state : S) (e e' : Event),
      (box.bringIn inputs.codeDir appRoot).result (s.world.disk, s.state) =
        (.ok n, (w.disk, state)) ∧
      w = s.world.on w.disk ∧
      (box.injectHost host).result (((w.reporting e).reporting e').disk, state) =
        (.ok (), (u.world.disk, u.state)) := by
  obtain ⟨t, e', hmirrored, hinject, -⟩ := exists_mirroring hresolve h
  obtain ⟨n, s₁, e, hbring, hworld, rfl⟩ := mirroring_eq_ok hmirrored
  exact ⟨n, s₁.world, s₁.state, e, e', hbring, hworld, hinject⟩

end

end Stage

end AgentChain
