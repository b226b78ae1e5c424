import AgentChain.Proofs.Failures
import AgentChain.Proofs.Package.Layout

/-!
# The agents of a workspace and their registry

The directories of a workspace decide which agents it has: each agent has one directory, and the order
in which the directories are listed does not matter, not even for what is refused. So the names of the
agents ascend, the first agent of a workflow is there once, and the registry that packaging makes of
them has no flaw. Packaging fails for other reasons only.
-/

namespace AgentChain

open AgentChain.Action Disk
open Agent (Houses)

namespace Discovery

variable {root directory : String} {bootstrap names listing : List String} {d d' : Disk} {w w' : World}
  {found : List Found} {discovery : Discovery} {requirements : List Requirement}

/-! ### One directory for each agent -/

def directoryOf (name : String) : String :=
  if name = Agent.rootName then "agent" else "agent-" ++ name

theorem eq_directoryOf (h : Houses directory name) (hother : directory ≠ "agent-root") :
    directory = directoryOf name := by
  cases h with
  | first => rfl
  | other =>
    rw [directoryOf, if_neg]
    rintro rfl
    exact hother rfl

theorem isReserved_iff : isReserved d root directory ↔
    directory = "agent-root" ∧ d.isDirectory (Path.join root directory) := by
  rw [isReserved, Bool.and_eq_true, bne_iff_ne, Option.any_eq_true]
  constructor
  · rintro ⟨hother, f, hf, hroot⟩
    obtain ⟨hhouses, hpath, hdir⟩ := agentAt_eq_some_iff.1 hf
    rw [beq_iff_eq.1 hroot] at hhouses
    cases hhouses with
    | first => exact absurd rfl hother
    | other => exact ⟨rfl, hpath ▸ hdir⟩
  · rintro ⟨rfl, hdir⟩
    have hhouses : Houses "agent-root" Agent.rootName :=
      Agent.nameOfDirectory?_eq_some_iff.1 (by decide)
    exact ⟨by decide, ⟨Agent.rootName, _⟩, agentAt_eq_some_iff.2 ⟨hhouses, rfl, hdir⟩, rfl⟩

theorem find?_isReserved (names : List String) : names.find? (isReserved d root) =
    if "agent-root" ∈ names ∧ d.isDirectory (Path.join root "agent-root") = true then
      some "agent-root"
    else none := by
  split
  · next h =>
    obtain ⟨directory, hfind⟩ := Option.isSome_iff_exists.1
      (List.find?_isSome.2 ⟨_, h.1, isReserved_iff.2 ⟨rfl, h.2⟩⟩)
    rw [hfind, (isReserved_iff.1 (List.find?_some hfind)).1]
  · next h =>
    refine List.find?_eq_none.2 fun directory hdirectory hreserved => h ?_
    obtain ⟨rfl, hdir⟩ := isReserved_iff.1 hreserved
    exact ⟨hdirectory, hdir⟩

/-- Where no directory is reserved, an agent is in the directory that the naming rule gives it. -/
theorem eq_directoryOf_of_agentAt (hnone : names.find? (isReserved d root) = none)
    (hdirectory : directory ∈ names) (hat : agentAt d root directory = some f) :
    directory = directoryOf f.name := by
  obtain ⟨hhouses, hpath, hdir⟩ := agentAt_eq_some_iff.1 hat
  refine eq_directoryOf hhouses fun heq => ?_
  exact List.find?_eq_none.1 hnone _ hdirectory (isReserved_iff.2 ⟨heq, hpath ▸ hdir⟩)

/-! ### The order of the directories -/

theorem pairwise_sorted (found : List Found) :
    (found.mergeSort fun a b => decide (a.name ≤ b.name)).Pairwise fun a b => a.name ≤ b.name := by
  simpa using @List.pairwise_mergeSort _ (fun a b : Found => decide (a.name ≤ b.name))
    (fun a b c => by simpa using String.le_trans) (fun a b => by simpa using String.le_total _ _) found

theorem agentsAmong_perm (h : listing.Perm names) :
    (agentsAmong root listing).result d = (agentsAmong root names).result d := by
  have hfind : listing.find? (isReserved d root) = names.find? (isReserved d root) := by
    simp only [find?_isReserved, h.mem_iff]
  rw [result_agentsAmong, result_agentsAmong, hfind]
  cases hnone : names.find? (isReserved d root) with
  | some directory => rfl
  | none =>
    have hperm := h.filterMap (agentAt d root)
    have hsame : ∀ a b : Found, a ∈ listing.filterMap (agentAt d root) →
        b ∈ names.filterMap (agentAt d root) → a.name ≤ b.name → b.name ≤ a.name → a = b := by
      intro a b ha hb hle hge
      obtain ⟨x, hx, ha⟩ := List.mem_filterMap.1 ha
      obtain ⟨y, hy, hb⟩ := List.mem_filterMap.1 hb
      obtain rfl : x = y := by
        rw [eq_directoryOf_of_agentAt hnone (h.mem_iff.1 hx) ha, eq_directoryOf_of_agentAt hnone hy hb,
          String.le_antisymm hle hge]
      exact Option.some.inj (ha.symm.trans hb)
    refine congrArg (fun l => (Except.ok l, d)) (List.Perm.eq_of_pairwise (fun a b ha hb => ?_)
      (pairwise_sorted _) (pairwise_sorted _)
      ((List.mergeSort_perm _ _).trans (hperm.trans (List.mergeSort_perm _ _).symm)))
    exact hsame a b ((List.mergeSort_perm _ _).mem_iff.1 ha) ((List.mergeSort_perm _ _).mem_iff.1 hb)

theorem pairwise_names (hnodup : names.Nodup) (hnone : names.find? (isReserved d root) = none) :
    (((names.filterMap (agentAt d root)).mergeSort fun a b => decide (a.name ≤ b.name)).map
      (·.name)).Pairwise (· < ·) := by
  have hdistinct : (names.filterMap (agentAt d root)).Pairwise fun a b => a.name ≠ b.name := by
    rw [List.pairwise_filterMap]
    refine hnodup.imp_of_mem fun {x y} hx hy hne a ha b hb hname => hne ?_
    rw [eq_directoryOf_of_agentAt hnone hx ha, eq_directoryOf_of_agentAt hnone hy hb, hname]
  rw [List.pairwise_map]
  exact (pairwise_sorted _).imp₂ (fun _ _ => Std.lt_of_le_of_ne)
    (((List.mergeSort_perm _ _).pairwise_iff fun h => h.symm).2 hdistinct)

/-! ### What a workspace has -/

/-- What an agent declares on a disk: the lines of its requirement file, or nothing without one. -/
def Declares (d : Disk) (agent : Agent.Descriptor) (requirements : List Requirement) : Prop :=
  let path := Path.join agent.sourceDir requirementFile
  if d.isFile path then
    ∃ contents, d.readText path = .ok contents ∧ Requirement.parseFile agent.name contents = .ok requirements
  else requirements = []

theorem declares_of_requirementsOf (hname : agent.name = f.name) (hdir : agent.sourceDir = f.path)
    (h : (requirementsOf f).result d = (.ok requirements, d')) : Declares d agent requirements := by
  rw [requirementsOf, result_bind_of_ok (OnDisk.result_look _ _)] at h
  rw [Declares, hname, hdir]
  split at h
  · next hfile =>
    obtain ⟨contents, d₁, hread, h⟩ := result_bind_eq_ok.1 h
    obtain ⟨hcontents, -⟩ := OnDisk.result_read_eq_ok.1 (result_within_eq_ok.1 hread)
    rw [if_pos hfile]
    split at h
    · next hparse =>
      cases h
      exact ⟨contents, hcontents, hparse⟩
    · cases h
  · next hfile =>
    cases h
    rw [if_neg hfile]

theorem exists_declared
    (h : (requirementsIn found).result w = (.ok requirements, w')) : ∃ declared : List (List Requirement),
      requirements = declared.flatten ∧ List.Forall₂ (fun agent own => ∃ v, World.Reported w v ∧
        Declares v.disk agent own) (found.map fun f =>
          { name := f.name, sourceDir := f.path, modulePath := Agent.modulePath f.name }) declared := by
  induction found generalizing w requirements with
  | nil =>
    cases h
    exact ⟨[], rfl, .nil⟩
  | cons f found ih =>
    obtain ⟨own, w₁, hown, h⟩ := result_bind_eq_ok.1 h
    obtain ⟨⟨⟩, w₂, hreport, h⟩ := result_bind_eq_ok.1 h
    obtain ⟨others, w₃, hothers, h⟩ := result_bind_eq_ok.1 h
    cases h
    have hreported : World.Reported w w₂ := World.Reported.frame.trans
      ((World.reported_onDisk (moves_requirementsOf f)).of_result hown)
      ((World.reported_report _).of_result hreport)
    obtain ⟨declared, rfl, hdeclared⟩ := ih hothers
    refine ⟨own :: declared, rfl, .cons ⟨w, World.Reported.frame.refl w, ?_⟩ (hdeclared.imp ?_)⟩
    · exact declares_of_requirementsOf rfl rfl (World.of_result_onDisk hown).1
    · rintro agent own ⟨v, hv, hown⟩
      exact ⟨v, World.Reported.frame.trans hreported hv, hown⟩

/-- What is found in a workspace with given names in its directory. -/
structure Exact (root : String) (bootstrap names : List String) (w : World) (discovery : Discovery) :
    Prop where
  ascending : (discovery.agents.map (·.name)).Pairwise (· < ·)
  mem_iff : ∀ a, a ∈ discovery.agents ↔ ∃ directory ∈ names,
    w.disk.isDirectory (Path.join root directory) = true ∧ Houses directory a.name ∧
      a.sourceDir = Path.join root directory ∧ a.modulePath = Agent.modulePath a.name
  single : ∀ directory ∈ names, w.disk.isDirectory (Path.join root directory) = true →
    ∀ name, Houses directory name → directory = directoryOf name
  rootAgent : discovery.rootAgent = Agent.rootName
  root_once : (discovery.agents.map (·.name)).count Agent.rootName = 1
  /-- Each requirement file is read after some reports of events. -/
  requested : ∃ declared : List (List Requirement),
    List.Forall₂ (fun agent own => ∃ v, World.Reported w v ∧ Declares v.disk agent own)
      discovery.agents declared ∧
    discovery.requirements = declared.flatten ∧
    ∀ p, p ∈ discovery.requested ↔ p ∈ bootstrap ∨ ∃ own ∈ declared, ∃ r ∈ own, r.name = p

theorem exact_of_scan (h : (scan root bootstrap).result w = (.ok discovery, w')) :
    ∃ names, w.disk.names root = .ok names ∧ Exact root bootstrap names w discovery := by
  obtain ⟨found, requirements, w₁, hfound, -, hroot, hrequirements, rfl, -⟩ := scan_eq_ok_iff.1 h
  obtain ⟨-, names, hnames, hreserved, rfl⟩ := agentsIn_eq_ok_iff.1 hfound
  obtain ⟨P, -, hsorted, -⟩ := names_eq_ok hnames
  have hnone : names.find? (isReserved w.disk root) = none := by simpa using hreserved
  have hascending := pairwise_names (hsorted.imp Std.ne_of_lt) hnone
  obtain ⟨declared, rfl, hdeclared⟩ := exists_declared hrequirements
  refine ⟨names, hnames, ?_, fun a => ?_, ?_, rfl, ?_, declared, hdeclared, rfl, fun p => ?_⟩
  · simpa [summary, Function.comp_def] using hascending
  · simp only [summary, List.mem_map, (List.mergeSort_perm _ _).mem_iff, List.mem_filterMap,
      agentAt_eq_some_iff]
    constructor
    · rintro ⟨f, ⟨directory, hdirectory, hhouses, hpath, hdir⟩, rfl⟩
      exact ⟨directory, hdirectory, hpath ▸ hdir, hhouses, hpath, rfl⟩
    · rintro ⟨directory, hdirectory, hdir, hhouses, hpath, hmodule⟩
      refine ⟨⟨a.name, a.sourceDir⟩, ⟨directory, hdirectory, hhouses, hpath, hpath ▸ hdir⟩, ?_⟩
      rw [← hmodule]
  · intro directory hdirectory hdir name hhouses
    exact eq_directoryOf_of_agentAt hnone hdirectory
      (agentAt_eq_some_iff (f := ⟨name, _⟩).2 ⟨hhouses, rfl, hdir⟩)
  · obtain ⟨f, hf, hname⟩ := List.any_eq_true.1 hroot
    refine List.count_eq_one_of_mem ?_ (List.mem_map.2 ⟨_, List.mem_map.2 ⟨f, hf, rfl⟩, beq_iff_eq.1 hname⟩)
    simpa [summary, Function.comp_def, List.Nodup] using hascending.imp Std.ne_of_lt
  · simp only [summary, Text.NameSet.mem_ofList, List.mem_append, List.mem_map, List.mem_flatten]
    constructor
    · rintro (⟨r, ⟨own, hown, hr⟩, rfl⟩ | hp)
      · exact .inr ⟨own, hown, r, hr, rfl⟩
      · exact .inl hp
    · rintro (hp | ⟨own, hown, r, hr, rfl⟩)
      · exact .inr hp
      · exact .inl ⟨r, ⟨own, hown, hr⟩, rfl⟩

theorem Exact.sensible (h : Exact root bootstrap names w discovery) :
    (Package.packed discovery).Sensible where
  distinct := by
    simpa [Package.packed, Function.comp_def, List.Nodup] using h.ascending.imp Std.ne_of_lt
  worded agent hagent := by
    obtain ⟨a, ha, rfl⟩ := List.mem_map.1 hagent
    obtain ⟨-, -, -, -, -, hmodule⟩ := (h.mem_iff a).1 ha
    refine ⟨'a', ?_, by decide⟩
    simp only [hmodule, Agent.modulePath, String.toList_append, List.mem_append]
    exact .inl (.inl (by decide))
  listed := by
    obtain ⟨a, ha, hname⟩ := List.mem_map.1 (List.count_pos_iff.1 (by rw [h.root_once]; decide))
    exact ⟨_, List.mem_map_of_mem ha, hname.trans h.rootAgent.symm⟩

/-- Look through a workspace whose directory lists its names in some order. -/
def scanListed (root : String) (bootstrap listing : List String) : Action World Discovery := do
  gather root bootstrap (← World.onDisk (agentsAmong root listing))

theorem scanListed_eq (hnames : w.disk.names root = .ok names) (h : listing.Perm names) :
    (scanListed root bootstrap listing).result w = (scan root bootstrap).result w := by
  have hread : (agentsIn root).result w.disk = (agentsAmong root names).result w.disk :=
    result_bind_of_ok (result_within_eq_ok.2 (OnDisk.result_read_eq_ok.2 ⟨hnames, rfl⟩)) _
  rw [scanListed, scan, result_bind, result_bind, World.onDisk, World.onDisk, result_onPart,
    result_onPart, agentsAmong_perm h, hread]

section Failures

variable {P : Failure → Prop} (hP : Failure.Routine P) (hdiscovery : ∀ f, P (.discovery f))
include hP

theorem fails_requirementsIn (found : List Found) : Fails P (requirementsIn found) := by
  induction found with
  | nil => exact .pure _
  | cons f found ih =>
    refine .bind (.onPart (closed_requirementsOf (OnDisk.closed_routine hP) f)) fun _ => ?_
    exact .bind (World.fails_report _) fun _ => .bind ih fun _ => .pure _

include hdiscovery

theorem fails_scan (root : String) (bootstrap : List String) : Fails P (scan root bootstrap) := by
  refine .bind (.onPart (closed_agentsIn (OnDisk.closed_routine hP) hdiscovery root)) fun found => ?_
  rw [gather]
  split
  · exact .bind (World.fails_report _) fun _ => .fail (hdiscovery _)
  split
  · exact .bind (World.fails_report _) fun _ => .fail (hdiscovery _)
  · exact .bind (fails_requirementsIn hP found) fun _ => .bind (World.fails_report _) fun _ => .pure _

end Failures

end Discovery

/-! ### What packaging fails with -/

namespace Package

variable {P : Failure → Prop} (hP : Failure.Routine P) (hpackaging : ∀ f, P (.packaging f))
include hP hpackaging

theorem fails_buildCodeTree (h : (packed discovery).Sensible)
    (runtimeDir tree : String) : Fails P (buildCodeTree runtimeDir discovery tree) := by
  have hC : OnDisk.Closed TextChange P fun _ x => Fails P x := OnDisk.closed_fails hP
  have hbase : Fails P (layBase runtimeDir tree) := by
    refine .bind (hC.createDirectories_text .createDirectory _) fun _ => .bind (hC.look _) fun there => ?_
    split
    · exact closed_copyTree hC _ _
    · exact .pure ()
  rw [buildCodeTree_eq]
  refine .bind hbase fun _ => .bind_of_ok (closed_copyAgents hC hpackaging tree _) fun _ _ _ hcopy => ?_
  obtain rfl := eq_of_copyAgents hcopy
  exact .bind (Registry.closed_store hC fun hflaws => (hflaws ((packed discovery).flaws_eq_nil_iff.2 h)).elim)
    fun _ => .pure _

variable (hdiscovery : ∀ f, P (.discovery f))
include hdiscovery

theorem fails_run [Gzip.Encoder] (root : String) (config : Config) : Fails P (run root config) := by
  have hC : OnDisk.Closed TextChange P fun _ x => Fails P x := OnDisk.closed_fails hP
  have hinputs : Fails P (inputs root config) :=
    .bind (Discovery.fails_scan hP hdiscovery _ _) fun _ =>
      .bind (.onPart (.within hP (Storage.closed_readDocument hC _ _) _)) fun _ => .pure _
  refine .bind_of_ok hinputs fun w ⟨discovery, vendor⟩ w' h => ?_
  obtain ⟨found, w₁, hscan, h⟩ := result_bind_eq_ok.1 h
  obtain ⟨manifest, w₂, -, h⟩ := result_bind_eq_ok.1 h
  cases h
  obtain ⟨names, -, hexact⟩ := Discovery.exact_of_scan hscan
  refine .bind (.onPart (closed_resetDirectory hC _)) fun _ => ?_
  refine .attempt_bind ?_ (fun a => .bind (.onPart nofun) fun _ => .pure a)
    fun e he => .bind (.onPart nofun) fun _ => .fail he
  refine .bind (.onPart (closed_remove hC _)) fun _ => .bind (.onPart (closed_remove hC _)) fun _ => ?_
  refine .bind (.onPart (fails_buildCodeTree hP hpackaging hexact.sensible _ _)) fun _ => ?_
  refine .bind (.onPart (closed_buildDepsTree hC hpackaging .createDirectory .copy _ _ _)) fun _ => ?_
  refine .bind (.onPart (closed_finish hC hpackaging _ _ _)) fun _ => ?_
  refine .bind (World.fails_report _) fun _ => .bind (.onPart (closed_finish hC hpackaging _ _ _)) fun _ => ?_
  exact .bind (World.fails_report _) fun _ => .pure _

end Package

/-- What is found in a workspace does not depend on the order in which its directory is listed, whether
it is refused or not. What is found has the agents of all directories that follow the naming rule, each
once, in ascending order of their names, and the first agent of a workflow among them; it requests the
bootstrap packages and all declared ones. The registry of its code tree has no flaw, and so no
packaging fails because of a registry. -/
theorem Discovery.scan_orderless_and_registered [Gzip.Encoder] (root : String)
    (bootstrap : List String) (w : World) :
    (∀ names listing, w.disk.names root = .ok names → listing.Perm names →
      (scanListed root bootstrap listing).result w = (scan root bootstrap).result w) ∧
    (∀ discovery w', (scan root bootstrap).result w = (.ok discovery, w') →
      (∃ names, w.disk.names root = .ok names ∧ Exact root bootstrap names w discovery) ∧
      ∀ tree d agents d', (Package.copyAgents tree discovery.agents).result d = (.ok agents, d') →
        ({ agents, rootAgent := discovery.rootAgent } : Registry).flaws = []) ∧
    ∀ config f w', (Package.run root config).result w = (.error f, w') →
      ∀ path flaws, f.cause ≠ .refusal (.registry path flaws) := by
  refine ⟨fun names listing hnames hlisting => scanListed_eq hnames hlisting,
    fun discovery w' hscan => ?_, fun config f w' hrun path flaws hcause => ?_⟩
  · obtain ⟨names, hnames, hexact⟩ := exact_of_scan hscan
    refine ⟨⟨names, hnames, hexact⟩, fun tree d agents d' hcopy => ?_⟩
    obtain rfl := Package.eq_of_copyAgents hcopy
    exact (Package.packed discovery).flaws_eq_nil_iff.2 hexact.sensible
  · have hP : Failure.Routine fun f => ∀ path flaws, f.cause ≠ .refusal (.registry path flaws) :=
      ⟨nofun, fun r hr path flaws heq => hr path flaws (Failure.refusal.inj heq), fun _ _ => id⟩
    exact (Package.fails_run hP nofun nofun root config).of_result hrun path flaws hcause

end AgentChain
