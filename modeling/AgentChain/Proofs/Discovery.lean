import AgentChain.Proofs.Building
import AgentChain.Proofs.Closure
import AgentChain.Proofs.FileTree.Alike

/-!
# What is found in a workspace

Looking through a workspace reads the names in its directory and the requirement files of its
agents, and changes nothing but what reported events change. What is found does not depend on the
files at some places, as long as no requirement file of an agent is one of them: an agent is a
directory, and no directory is reached by way of a file.
-/

namespace AgentChain

open AgentChain.Action Disk
open Bytes (ofText)
open AgentChain.Path (IsName)

/-! ### Agents -/

namespace Agent

def Spelled (name : String) : Prop :=
  ∃ c rest, name.toList = c :: rest ∧ isInitial c = true ∧ ∀ d ∈ rest, isPart d = true

/-- The naming rule: `agent` is the directory of the first agent of a workflow, and `agent-NAME` that of
the agent `NAME`. -/
inductive Houses : (directory name : String) → Prop
  | first : Houses "agent" rootName
  | other {name : String} (h : Spelled name) : Houses ("agent-" ++ name) name

variable {directory name : String}

theorem nameOfDirectory?_eq_some_iff : nameOfDirectory? directory = some name ↔ Houses directory name := by
  constructor
  · intro h
    rw [nameOfDirectory?] at h
    split at h
    · next hfirst =>
      cases h
      exact hfirst ▸ .first
    simp only at h
    split at h
    · next hmarker =>
      obtain ⟨cs, hcs⟩ := List.isPrefixOf_iff_prefix.1 hmarker
      rw [← hcs, List.drop_left] at h
      split at h
      · next c rest =>
        split at h
        · next hcond =>
          cases h
          obtain ⟨hc, hrest⟩ := Bool.and_eq_true_iff.1 hcond
          obtain rfl : directory = "agent-" ++ String.ofList (c :: rest) :=
            String.toList_injective (by simp [← hcs])
          exact .other ⟨c, rest, String.toList_ofList, hc, List.all_eq_true.1 hrest⟩
        · cases h
      · cases h
    · cases h
  · rintro (_ | ⟨⟨c, rest, hname, hc, hrest⟩⟩)
    · rfl
    · have hother : ("agent-" ++ name : String) ≠ "agent" := fun heq => by
        simpa using congrArg (fun s => s.toList.length) heq
      have hmarker : "agent-".toList.isPrefixOf ("agent-".toList ++ name.toList) :=
        List.isPrefixOf_iff_prefix.2 (List.prefix_append ..)
      rw [nameOfDirectory?, if_neg hother, String.toList_append]
      dsimp only
      rw [if_pos hmarker, List.drop_left, hname]
      dsimp only
      rw [hc, List.all_eq_true.2 hrest, ← hname, String.ofList_toList]
      rfl

theorem Spelled.isName (h : Spelled name) : IsName name ∧ '.' ∉ name.toList := by
  obtain ⟨c, rest, hname, hc, hrest⟩ := h
  have hparts : ∀ d ∈ name.toList, isPart d := by
    rw [hname, List.forall_mem_cons]
    exact ⟨by rw [isPart, hc]; rfl, hrest⟩
  have hpoint : '.' ∉ name.toList := fun hmem => absurd (hparts _ hmem) (by decide)
  refine ⟨⟨?_, ?_, ?_, fun hmem => absurd (hparts _ hmem) (by decide)⟩, hpoint⟩
  · rintro rfl
    cases hname
  · rintro rfl
    exact hpoint (by decide)
  · rintro rfl
    exact hpoint (by decide)

theorem Houses.isName (h : Houses directory name) : IsName name ∧ '.' ∉ name.toList := by
  cases h with
  | first => decide
  | other h => exact h.isName

end Agent

namespace Discovery

variable {K : (Disk → Except Fault Disk) → Prop} {P : Failure → Prop}
  {C : (α : Type) → Action Disk α → Prop}

theorem closed_agentsIn (hC : OnDisk.Closed K P C) (hreserved : ∀ f, P (.discovery f)) (root : String) :
    C _ (agentsIn root) := by
  refine hC.bind (hC.within _ (hC.read _)) fun names => hC.bind (hC.look _) fun reserved => ?_
  split
  · exact hC.fail (hreserved _)
  · exact hC.bind (hC.look _) fun _ => hC.pure _

theorem closed_requirementsOf (hC : OnDisk.Closed K P C) (agent : Found) :
    C _ (requirementsOf agent) := by
  refine hC.bind (hC.look _) fun there => ?_
  split
  · refine hC.bind (hC.readText _) fun contents => ?_
    split
    · exact hC.pure _
    · exact hC.fail (hC.routine.within _ _ (hC.routine.refusal _ nofun))
  · exact hC.pure _

theorem moves_agentsIn (root : String) : Moves Eq (agentsIn root) :=
  closed_agentsIn (OnDisk.closed_still frame_eq) (fun _ => trivial) root

theorem moves_requirementsOf (agent : Found) : Moves Eq (requirementsOf agent) :=
  closed_requirementsOf (OnDisk.closed_still frame_eq) agent

end Discovery

/-! ### Reports of events -/

/-- Between two worlds nothing happened but reports of events. -/
def World.Reported (w w' : World) : Prop :=
  ∃ events : List Event, w' = events.foldl World.reporting w

namespace World

variable {w w' : World}

theorem Reported.frame : Frame Reported where
  refl _ := ⟨[], rfl⟩
  trans := by
    rintro _ _ _ ⟨events, rfl⟩ ⟨more, rfl⟩
    exact ⟨events ++ more, List.foldl_append.symm⟩

theorem Reported.moves (h : Reported w w') (hR : Frame R)
    (hreport : ∀ w e, R w (w.reporting e)) : R w w' := by
  obtain ⟨events, rfl⟩ := h
  induction events generalizing w with
  | nil => exact hR.refl w
  | cons e events ih => exact hR.trans (hreport w e) ih

theorem Reported.disk_eq (h : Reported w w') (hlogs : w.logs = []) : w'.disk = w.disk := by
  obtain ⟨events, rfl⟩ := h
  induction events generalizing w with
  | nil => rfl
  | cons e events ih =>
    have hsame : (w.reporting e).disk = w.disk := by rw [reporting, hlogs]; rfl
    exact (ih (w := w.reporting e) hlogs).trans hsame

theorem reported_report (e : Event) : Moves Reported (report e) :=
  fun _ => ⟨[e], rfl⟩

theorem reported_onDisk (hx : Moves Eq x) : Moves Reported (onDisk x) := by
  intro w
  have hsame : ((onDisk x).result w).2 = w := by
    rw [onDisk, result_onPart, ← hx w.disk]
  rw [hsame]
  exact Reported.frame.refl w

end World

namespace Discovery

open World

variable {root : String} {bootstrap : List String} {d d' : Disk} {w w' : World} {found : List Found}
  {discovery : Discovery}

theorem reported_requirementsIn (found : List Found) : Moves Reported (requirementsIn found) := by
  induction found with
  | nil => exact Reported.frame.pure _
  | cons agent found ih =>
    refine Reported.frame.bind (reported_onDisk (moves_requirementsOf agent)) fun _ => ?_
    exact Reported.frame.bind (reported_report _) fun _ =>
      Reported.frame.bind ih fun _ => Reported.frame.pure _

theorem reported_scan (root : String) (bootstrap : List String) :
    Moves Reported (scan root bootstrap) := by
  have hR := Reported.frame
  refine hR.bind (reported_onDisk (moves_agentsIn root)) fun found => ?_
  rw [gather]
  split
  · exact hR.bind (reported_report _) fun _ => hR.fail _
  split
  · exact hR.bind (reported_report _) fun _ => hR.fail _
  · exact hR.bind (reported_requirementsIn found) fun _ =>
      hR.bind (reported_report _) fun _ => hR.pure _

/-! ### What is found -/

theorem result_agentsAmong (root : String) (names : List String) (d : Disk) :
    (agentsAmong root names).result d = (match names.find? (isReserved d root) with
      | some directory => .error (.discovery (.reservedName directory Agent.rootName))
      | none => .ok ((names.filterMap (agentAt d root)).mergeSort fun a b => decide (a.name ≤ b.name)),
      d) := by
  rw [agentsAmong, result_bind_of_ok (OnDisk.result_look _ _)]
  cases names.find? (isReserved d root) <;> rfl

/-- The agents of a workspace are those in its directories, in the order of their names, unless one
of them is reserved. -/
theorem agentsIn_eq_ok_iff :
    (agentsIn root).result d = (.ok found, d') ↔ d' = d ∧ ∃ names, d.names root = .ok names ∧
      (∀ directory ∈ names, isReserved d root directory = false) ∧
      found = (names.filterMap (agentAt d root)).mergeSort fun a b => decide (a.name ≤ b.name) := by
  constructor
  · intro h
    obtain ⟨names, d₁, hread, hrest⟩ := result_bind_eq_ok.mp h
    obtain ⟨hnames, rfl⟩ := OnDisk.result_read_eq_ok.mp (result_within_eq_ok.mp hread)
    rw [result_agentsAmong] at hrest
    split at hrest
    · cases hrest
    · next hnone =>
      cases hrest
      exact ⟨rfl, names, hnames, by simpa using hnone, rfl⟩
  · rintro ⟨rfl, names, hnames, hreserved, rfl⟩
    have hnone : names.find? (isReserved d' root) = none := by simpa using hreserved
    rw [agentsIn, result_bind_of_ok (result_within_eq_ok.mpr (OnDisk.result_read_eq_ok.mpr
      ⟨hnames, rfl⟩)), result_agentsAmong, hnone]

theorem agentAt_eq_some_iff : agentAt d root directory = some f ↔
    Agent.Houses directory f.name ∧ f.path = Path.join root directory ∧ d.isDirectory f.path := by
  rw [agentAt, Option.ite_none_right_eq_some, Option.map_eq_some_iff]
  constructor
  · rintro ⟨hdir, name, hname, rfl⟩
    exact ⟨Agent.nameOfDirectory?_eq_some_iff.1 hname, rfl, hdir⟩
  · rintro ⟨hname, hpath, hdir⟩
    rw [hpath] at hdir
    exact ⟨hdir, f.name, Agent.nameOfDirectory?_eq_some_iff.2 hname, by rw [← hpath]⟩

theorem of_agentsIn (h : (agentsIn root).result d = (.ok found, d')) :
    ∀ f ∈ found, (IsName f.name ∧ '.' ∉ f.name.toList) ∧ d.isDirectory f.path := by
  obtain ⟨-, names, -, -, rfl⟩ := agentsIn_eq_ok_iff.mp h
  intro f hf
  rw [(List.mergeSort_perm _ _).mem_iff, List.mem_filterMap] at hf
  obtain ⟨directory, -, hat⟩ := hf
  obtain ⟨hname, -, hdir⟩ := agentAt_eq_some_iff.1 hat
  exact ⟨hname.isName, hdir⟩

/-- What is found in a workspace with given agents that declare given packages. -/
def summary (bootstrap : List String) (found : List Found) (requirements : List Requirement) :
    Discovery where
  agents := found.map fun f =>
    { name := f.name, sourceDir := f.path, modulePath := Agent.modulePath f.name }
  rootAgent := Agent.rootName
  requirements := requirements
  requested := .ofList (requirements.map (·.name) ++ bootstrap)

/-- The event that the declared packages were collected. -/
def collectedEvent (found : List Found) (requested : Text.NameSet) : Event :=
  (Event.make "discover" .info "requirements_collected").field "agents" (.ofCount found.length)
    |>.field "requested" (.ofTexts requested)

theorem scan_eq_ok_iff :
    (scan root bootstrap).result w = (.ok discovery, w') ↔ ∃ found requirements w₁,
      (agentsIn root).result w.disk = (.ok found, w.disk) ∧ found.isEmpty = false ∧
      (found.any fun f => f.name == Agent.rootName) ∧
      (requirementsIn found).result w = (.ok requirements, w₁) ∧
      discovery = summary bootstrap found requirements ∧
      w' = w₁.reporting (collectedEvent found discovery.requested) := by
  constructor
  · intro h
    obtain ⟨found, w₁, hfound, h⟩ := result_bind_eq_ok.mp h
    rw [World.onDisk, result_onPart] at hfound
    have hsame := moves_agentsIn root w.disk
    rcases hagents : (agentsIn root).result w.disk with ⟨r, d⟩
    rw [hagents] at hfound hsame
    cases hsame
    cases hfound
    rw [gather] at h
    split at h
    · obtain ⟨-, -, -, h⟩ := result_bind_eq_ok.mp h
      cases h
    next hsome =>
    split at h
    · obtain ⟨-, -, -, h⟩ := result_bind_eq_ok.mp h
      cases h
    next hroot =>
    obtain ⟨requirements, w₂, hrequirements, h⟩ := result_bind_eq_ok.mp h
    obtain ⟨⟨⟩, w₃, hreport, h⟩ := result_bind_eq_ok.mp h
    cases hreport
    cases h
    exact ⟨found, requirements, w₂, rfl, by simpa using hsome, by simpa using hroot, hrequirements,
      rfl, rfl⟩
  · rintro ⟨found, requirements, w₁, hfound, hsome, hroot, hrequirements, rfl, rfl⟩
    have hagents : (World.onDisk (agentsIn root)).result w = (.ok found, w) := by
      rw [World.onDisk, result_onPart, hfound]
    rw [scan, result_bind_of_ok hagents, gather, hsome, hroot]
    exact result_bind_of_ok hrequirements _

theorem named_of_scan (h : (scan root bootstrap).result w = (.ok discovery, w')) :
    ∀ agent ∈ discovery.agents, IsName agent.name ∧ '.' ∉ agent.name.toList ∧
      agent.modulePath = Agent.modulePath agent.name := by
  obtain ⟨found, requirements, w₁, hfound, -, -, -, rfl, -⟩ := scan_eq_ok_iff.mp h
  intro agent hagent
  obtain ⟨f, hf, rfl⟩ := List.mem_map.1 hagent
  exact ⟨(of_agentsIn hfound f hf).1.1, (of_agentsIn hfound f hf).1.2, rfl⟩

theorem isName_of_scan (h : (scan root bootstrap).result w = (.ok discovery, w')) :
    ∀ agent ∈ discovery.agents, IsName agent.name :=
  fun agent hagent => (named_of_scan h agent hagent).1

theorem isDirectory_of_scan (hd : w.disk.Sound)
    (h : (scan root bootstrap).result w = (.ok discovery, w')) :
    w'.disk.Sound ∧ ∀ agent ∈ discovery.agents, w'.disk.isDirectory agent.sourceDir := by
  have hframe : Frame fun w w' : World => w.disk.Growing w'.disk :=
    ⟨fun w => Disk.Growing.frame.refl w.disk, Disk.Growing.frame.trans⟩
  obtain ⟨hd', hgrows⟩ := ((reported_scan root bootstrap).of_result h).moves hframe
    World.growing_reporting hd
  obtain ⟨found, requirements, w₁, hfound, -, -, -, rfl, -⟩ := scan_eq_ok_iff.mp h
  refine ⟨hd', fun agent hagent => ?_⟩
  obtain ⟨f, hf, rfl⟩ := List.mem_map.1 hagent
  exact hgrows.keeps.isDirectory hgrows.home (of_agentsIn hfound f hf).2

theorem mem_requested_of_scan (h : (scan root bootstrap).result w = (.ok discovery, w'))
    (hname : name ∈ bootstrap) : name ∈ discovery.requested := by
  obtain ⟨found, requirements, w₁, -, -, -, -, rfl, -⟩ := scan_eq_ok_iff.mp h
  exact Text.NameSet.mem_ofList.mpr (List.mem_append_right _ hname)

/-! ### Disks that differ in some files -/

variable {W : Place → Bool} {b : Disk} {agent : Found}

theorem agentAt_eq (h : Alike W d d') (root directory : String) :
    agentAt d' root directory = agentAt d root directory := by
  rw [agentAt, agentAt, h.isDirectory_eq]

theorem agentAt_eq_none (h : OnlyFiles W d) (hP : d.LeadsTo (ofText root) P)
    (hproper : Name.Proper (ofText directory))
    (hW : W (P ++ [ofText directory])) : agentAt d root directory = none := by
  rw [agentAt]
  refine if_neg fun hdir => ?_
  have hfile (e : Entry) (he : d.get? (P ++ [ofText directory]) = some e) :
      ∃ c, e = .file c := h.file _ e hW he
  have hget := (aims_join hproper hP).get?_of_isDirectory
    (fun t ht => by simpa using hfile _ ht) hdir
  simpa using hfile _ hget

theorem agentsIn_of_alike (h : Alike W d d') (hd : d.Sound) (hd' : d'.Sound)
    (hfound : (agentsIn root).result d = (.ok found, d)) :
    (agentsIn root).result d' = (.ok found, d') := by
  obtain ⟨-, names, hnames, hreserved, rfl⟩ := agentsIn_eq_ok_iff.mp hfound
  obtain ⟨P, hres, hsorted, hmem⟩ := names_eq_ok hnames
  have hleads : d.LeadsTo (ofText root) P := leadsTo_of_resolve hres
  have hres' : d'.resolve true root = .ok (.present P .directory) :=
    (hleads.mono h.keeps h.home).resolve_eq (ne_nil_of_resolve hres) (followable_of_resolve hres)
  obtain ⟨names', hnames'⟩ : ∃ names, d'.names root = .ok names := ⟨_, by rw [Disk.names, hres']⟩
  obtain ⟨P', hagain, hsorted', hmem'⟩ := names_eq_ok hnames'
  cases hres'.symm.trans hagain
  -- a name that only one of the two directories has is that of a file
  have hsame (directory : String) (hagent : (agentAt d root directory).isSome) :
      directory ∈ names ↔ directory ∈ names' := by
    rw [hmem, hmem']
    by_cases hW : W (P ++ [ofText directory])
    · have hnone (hproper : Name.Proper (ofText directory)) : False := by
        rw [agentAt_eq_none h.left hleads hproper hW] at hagent
        cases hagent
      exact ⟨fun hthere => (hnone (hd.proper _ hthere _ (by simp))).elim,
        fun hthere => (hnone (hd'.proper _ hthere _ (by simp))).elim⟩
    · rw [h.entry _ hW]
  refine agentsIn_eq_ok_iff.mpr ⟨rfl, names', hnames', fun directory hdirectory => ?_, ?_⟩
  · rw [isReserved, agentAt_eq h]
    by_contra hcontra
    rw [Bool.not_eq_false] at hcontra
    obtain ⟨-, hany⟩ := Bool.and_eq_true_iff.mp hcontra
    have hthere := (hsame directory (Option.isSome_of_any hany)).mpr hdirectory
    rw [← isReserved, hreserved directory hthere] at hcontra
    cases hcontra
  · congr 1
    rw [funext (agentAt_eq h root)]
    exact Text.NameSet.filterMap_eq hsorted hsorted' hsame

/-- No requirement file of an agent that is found is at one of some places, nor would be. -/
def Unread (W : Place → Bool) (root : String) (d : Disk) : Prop :=
  ∀ found, (agentsIn root).result d = (.ok found, d) → ∀ agent ∈ found,
    Misses W d (Path.join agent.path requirementFile)

theorem Unread.mono (h : Unread W root d) (hW : ∀ q, W' q → W q) : Unread W' root d :=
  fun found hfound agent hagent t p ht hp hq => h found hfound agent hagent t p ht hp (hW p hq)

theorem result_requirementsOf_of_alike (h : Alike W d d') (hd : d.Sound) (hd' : d'.Sound)
    (hmisses : Misses W d (Path.join agent.path requirementFile)) :
    ((requirementsOf agent).result d').1 = ((requirementsOf agent).result d).1 := by
  rw [requirementsOf, result_bind_of_ok (OnDisk.result_look _ _),
    result_bind_of_ok (OnDisk.result_look _ _), h.isFile_eq hd hd' hmisses]
  split
  · next hfile =>
    obtain ⟨c, hread⟩ := isFile_iff.mp hfile
    have hread' := (h.readBytes_iff hd hd' hmisses).mpr hread
    have htext : d'.readText (Path.join agent.path requirementFile) =
        d.readText (Path.join agent.path requirementFile) := by
      rw [readText, readText, hread, hread']
    rw [result_bind, result_bind, OnDisk.readText, result_within, result_within, OnDisk.result_read,
      OnDisk.result_read, htext]
    cases d.readText (Path.join agent.path requirementFile) with
    | error f => rfl
    | ok contents =>
      dsimp only [Except.mapError]
      split <;> rfl
  · rfl

theorem exists_requirementsIn_of_alike {I : World → Prop} (hreport : ∀ w e, I w → I (w.reporting e))
    (hI : ∀ w, I w → w.disk.Sound ∧ Alike W b w.disk) (hb : b.Sound) {v} {requirements}
    (hmisses : ∀ agent ∈ found, Misses W b (Path.join agent.path requirementFile))
    (hw : I w) (hv : I v) (h : (requirementsIn found).result w = (.ok requirements, w')) :
    ∃ v', (requirementsIn found).result v = (.ok requirements, v') := by
  induction found generalizing w v requirements with
  | nil =>
    cases h
    exact ⟨v, rfl⟩
  | cons agent found ih =>
    obtain ⟨hagent, hfound⟩ := List.forall_mem_cons.mp hmisses
    obtain ⟨own, w₁, hown, hafter⟩ := result_bind_eq_ok.mp h
    obtain ⟨⟨⟩, w₂, hreported, hrest⟩ := result_bind_eq_ok.mp hafter
    obtain ⟨others, w₃, hothers, hlast⟩ := result_bind_eq_ok.mp hrest
    cases hreported
    cases hlast
    have hsame (w : World) (hw : I w) : (World.onDisk (requirementsOf agent)).result w =
        (((requirementsOf agent).result b).1, w) := by
      obtain ⟨hsound, halike⟩ := hI w hw
      rw [World.onDisk, result_onPart, ← moves_requirementsOf agent w.disk,
        result_requirementsOf_of_alike halike hb hsound hagent]
    rw [hsame w hw] at hown
    obtain ⟨hok, rfl⟩ := Prod.mk.inj hown
    have hown' : (World.onDisk (requirementsOf agent)).result v = (.ok own, v) := by
      rw [hsame v hv, hok]
    obtain ⟨v', hothers'⟩ :=
      ih hfound (hreport _ _ hw) (hreport v (agentEvent agent own) hv) hothers
    refine ⟨v', ?_⟩
    rw [requirementsIn, result_bind_of_ok hown']
    exact result_bind_of_ok hothers' _

theorem exists_scan_of_alike {I : World → Prop} (hreport : ∀ w e, I w → I (w.reporting e))
    (hI : ∀ w, I w → w.disk.Sound ∧ Alike W b w.disk) (hb : b.Sound) (hunread : Unread W root b)
    {v} (hw : I w) (hv : I v) (h : (scan root bootstrap).result w = (.ok discovery, w')) :
    ∃ v', (scan root bootstrap).result v = (.ok discovery, v') := by
  obtain ⟨found, requirements, w₁, hfound, hsome, hroot, hrequirements, hdiscovery, -⟩ :=
    scan_eq_ok_iff.mp h
  obtain ⟨hwsound, hwalike⟩ := hI w hw
  obtain ⟨hvsound, hvalike⟩ := hI v hv
  have hmisses := hunread found (agentsIn_of_alike hwalike.symm hwsound hb hfound)
  obtain ⟨v₁, hrequirements'⟩ := exists_requirementsIn_of_alike hreport hI hb hmisses hw hv
    hrequirements
  have hfound' := agentsIn_of_alike (hwalike.symm.trans hvalike) hwsound hvsound hfound
  exact ⟨_, scan_eq_ok_iff.mpr
    ⟨found, requirements, v₁, hfound', hsome, hroot, hrequirements', hdiscovery, rfl⟩⟩

end Discovery

end AgentChain
