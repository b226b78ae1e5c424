import AgentChain.Proofs.Engine.Known
import AgentChain.Proofs.Json.Returned
import AgentChain.Proofs.Registry
import AgentChain.Proofs.Stage.HandOver

/-!
# Agents that are known

The agents of a registry are resolved one after another. This ends at the first agent whose module
does not resolve, or it gives a table that has the agents of the registry and nothing else, each with
its own module. The first agent of the workflow is listed in a registry that can be loaded, and every
later task of a run is checked against the table before the machine moves on. So no step of a run
begins with an agent that is not known, however long the run is and whatever becomes of it.
-/

namespace AgentChain

open AgentChain.Action

/-! ### Registries that are loaded -/

namespace Registry

def modules (r : Registry) : List (String × String) :=
  r.agents.map fun agent => (agent.name, agent.modulePath)

theorem sensible_of_load (h : (load path).result d = (.ok r, d')) : r.Sensible := by
  obtain ⟨r', d₁, -, h⟩ := result_bind_eq_ok.1 h
  obtain ⟨⟨⟩, d₂, hcheck, h⟩ := result_bind_eq_ok.1 h
  cases h
  exact sensible_of_check hcheck

variable {r : Registry} (h : r.Sensible)
include h

theorem Sensible.nodup_modules : (r.modules.map (·.1)).Nodup := by
  have hnames : r.modules.map (·.1) = r.agents.map (·.name) := by
    simp [modules]
  exact hnames ▸ h.distinct

theorem Sensible.lookup?_sortMembers (hagent : agent ∈ r.agents) :
    Json.lookup? agent.name (Json.sortMembers r.modules) = some agent.modulePath := by
  rw [Json.lookup?_sortMembers h.nodup_modules, Json.lookup?_eq_some_iff h.nodup_modules]
  exact List.mem_map.2 ⟨agent, hagent, rfl⟩

end Registry

/-! ### The table of the agents -/

namespace Stage

variable {S : Type} {box : Sandbox S}

/-- The modules of agents are resolved one after another. -/
inductive Resolves (box : Sandbox S) : List Agent.Descriptor → Disk × S → Disk × S → Prop
  | nil (s : Disk × S) : Resolves box [] s s
  | cons {agent : Agent.Descriptor} {rest : List Agent.Descriptor} {s t u : Disk × S}
    (first : (box.resolveModule agent.modulePath).result s = (.ok (), t))
    (others : Resolves box rest t u) : Resolves box (agent :: rest) s u

/-- Resolving agents stops at an agent whose module does not resolve, after the modules of all agents
before it did. -/
def StopsAt (box : Sandbox S) (agents : List Agent.Descriptor) (s : Disk × S)
    (r : Except Failure Agent.Table × (Disk × S)) : Prop :=
  ∃ before agent after t f u, agents = before ++ agent :: after ∧ Resolves box before s t ∧
    (box.resolveModule agent.modulePath).result t = (.error f, u) ∧
    r = (.error (.within (.resolveAgent agent.name agent.modulePath) f), u)

theorem resolveAgents_cases (box : Sandbox S) (agents : List Agent.Descriptor) (table : Agent.Table)
    (s : Disk × S) :
    StopsAt box agents s ((resolveAgents box agents table).result s) ∨
      ∃ t, Resolves box agents s t ∧ (resolveAgents box agents table).result s =
        (.ok (agents.foldl (fun table agent =>
          Json.setMember agent.name agent.modulePath table) table), t) := by
  induction agents generalizing table s with
  | nil => exact .inr ⟨s, .nil s, rfl⟩
  | cons agent agents ih =>
    rw [resolveAgents]
    rcases hfirst : (box.resolveModule agent.modulePath).result s with ⟨f | ⟨⟩, t⟩
    · refine .inl ⟨[], agent, agents, s, f, t, rfl, .nil s, hfirst, ?_⟩
      rw [result_bind, result_within, hfirst]
      rfl
    · rw [result_bind_of_ok (result_within_eq_ok.2 hfirst)]
      rcases ih (Json.setMember agent.name agent.modulePath table) t with
        ⟨before, other, after, t', f, u, rfl, hbefore, hfailed, hres⟩ | ⟨u, hrest, hres⟩
      · exact .inl ⟨agent :: before, other, after, t', f, u, rfl, .cons hfirst hbefore, hfailed, hres⟩
      · exact .inr ⟨u, .cons hfirst hrest, hres⟩

theorem buildTable_cases (box : Sandbox S) (registry : Registry) (s : Disk × S) :
    StopsAt box registry.agents s ((buildTable box registry).result s) ∨
      ∃ t, Resolves box registry.agents s t ∧
        (buildTable box registry).result s = (.ok (Json.sortMembers registry.modules), t) := by
  have hsorted : Json.sortMembers registry.modules = registry.agents.foldl (fun table agent =>
      Json.setMember agent.name agent.modulePath table) [] := by
    rw [Json.sortMembers, Registry.modules, List.foldl_map]
  rw [hsorted]
  exact resolveAgents_cases box registry.agents [] s

theorem of_run (h : (run box inputs vendor host).result s = (.ok staged, t)) :
    staged.registry.Sensible ∧ staged.table = Json.sortMembers staged.registry.modules := by
  rw [run_eq, entering_eq] at h
  obtain ⟨entered, s₁, hentering, h⟩ := result_bind_eq_ok.1 h
  obtain ⟨⟨⟩, s₂, -, hentering⟩ := result_bind_eq_ok.1 hentering
  obtain ⟨resolved, _, hresolving, hentering⟩ := result_bind_eq_ok.1 hentering
  obtain ⟨⟨⟩, _, -, hentering⟩ := result_bind_eq_ok.1 hentering
  cases hentering
  obtain rfl : staged = entered := by
    obtain ⟨⟨⟩, _, -, h⟩ := result_bind_eq_ok.1 h
    obtain ⟨⟨⟩, _, -, h⟩ := result_bind_eq_ok.1 h
    obtain ⟨⟨⟩, _, -, h⟩ := result_bind_eq_ok.1 h
    cases h
    rfl
  obtain ⟨registry, s₃, hload, hresolving⟩ := result_bind_eq_ok.1 hresolving
  obtain ⟨table, s₄, htable, hresolving⟩ := result_bind_eq_ok.1 hresolving
  obtain ⟨⟨⟩, _, -, hresolving⟩ := result_bind_eq_ok.1 hresolving
  cases hresolving
  obtain ⟨hload, -⟩ := Session.of_result_onWorld hload
  obtain ⟨htable, -⟩ := Session.of_result_onState htable
  refine ⟨Registry.sensible_of_load (World.of_result_onDisk hload).1, ?_⟩
  rcases buildTable_cases box registry (s₃.world.disk, s₃.state) with
    ⟨_, _, _, _, _, _, _, _, _, hres⟩ | ⟨_, -, hres⟩
  · cases hres.symm.trans htable
  · cases hres.symm.trans htable
    rfl

end Stage

/-! ### Runs -/

namespace Run

variable {S : Type} {box : Sandbox S} {root : String} {config : Config} {paths : Paths}
  {s t u : Session S} {setting : Engine.Setting S} {rootAgent : String} {run : Engine.Run}

/-- A run in a sandbox gets to the engine, which starts with an agent in the session `u`. -/
def Starts (box : Sandbox S) (root : String) (config : Config) (paths : Paths) (s : Session S)
    (setting : Engine.Setting S) (rootAgent : String) (u : Session S) : Prop :=
  ∃ verified v staged, Prepares root config paths s.world verified v ∧
    (Stage.run box (inputs paths verified) config.vendor (hostInfo verified.code)).result
      { world := v, state := s.state } = (.ok staged, u) ∧
    setting = { box, table := staged.table, limits := config.engine.limits,
                timeoutMs := config.engine.stepTimeoutMs } ∧
    rootAgent = staged.registry.rootAgent

theorem Starts.known (h : Starts box root config paths s setting rootAgent u) :
    (setting.module? rootAgent).isSome := by
  obtain ⟨verified, v, staged, -, hstage, rfl, rfl⟩ := h
  obtain ⟨hsensible, htable⟩ := Stage.of_run hstage
  obtain ⟨agent, hagent, hroot⟩ := hsensible.listed
  rw [Engine.Setting.module?, htable, ← hroot, hsensible.lookup?_sortMembers hagent]
  rfl

set_option maxRecDepth 100000

end Run

end AgentChain
