import AgentChain.Proofs.Document
import AgentChain.Storage

/-!
# Sensible registries, and registries that are read back

A registry is sensible if no name occurs twice, every module path has a word in it, and the first
agent of the workflow is listed. These are the registries in which no flaw is found. The text of a
registry is read to the registry, whether it is sensible or not.
-/

namespace AgentChain

open Document (ofValue)

theorem Agent.Descriptor.ofDocument?_toValue (a : Agent.Descriptor) :
    ofDocument? (ofValue a.toValue) = some a := by
  have hfields : Document.fields? ["name", "sourceDir", "modulePath"] (ofValue a.toValue) = _ :=
    Document.fields?_of_sublist (by decide) (List.Sublist.refl _)
  rw [ofDocument?, hfields]
  rfl

namespace Registry

variable (r : Registry)

/-! ### The rules -/

/-- The rules of a registry. -/
structure Sensible (r : Registry) : Prop where
  /-- No name occurs twice. -/
  distinct : (r.agents.map (·.name)).Nodup
  /-- Every module path has a character that is not blank. -/
  worded : ∀ a ∈ r.agents, ∃ c ∈ a.modulePath.toList, Text.isBlank c = false
  /-- The first agent of the workflow is listed. -/
  listed : ∃ a ∈ r.agents, a.name = r.rootAgent

theorem isAllBlank_eq_false_iff :
    Text.isAllBlank s = false ↔ ∃ c ∈ s.toList, Text.isBlank c = false := by
  simp [Text.isAllBlank]

theorem agentFlaws_eq_nil_iff {seen agents} :
    agentFlaws seen agents = [] ↔
      (∀ a ∈ agents, a.name ∉ seen ∧ Text.isAllBlank a.modulePath = false) ∧
        (agents.map (·.name)).Nodup := by
  induction agents generalizing seen with
  | nil => simp [agentFlaws]
  | cons a agents ih =>
    have hfirst : agentFlaws seen (a :: agents) = [] ↔
        (a.name ∉ seen ∧ Text.isAllBlank a.modulePath = false) ∧
          agentFlaws (a.name :: seen) agents = [] := by
      simp [agentFlaws, and_assoc]
    rw [hfirst, ih, List.forall_mem_cons, List.map_cons, List.nodup_cons, List.mem_map]
    constructor
    · rintro ⟨ha, hall, hnodup⟩
      refine ⟨⟨ha, fun b hb => ⟨fun h => (hall b hb).1 (List.mem_cons_of_mem _ h), (hall b hb).2⟩⟩,
        ?_, hnodup⟩
      rintro ⟨b, hb, heq⟩
      exact (hall b hb).1 (heq ▸ List.mem_cons_self)
    · rintro ⟨⟨ha, hall⟩, hnew, hnodup⟩
      refine ⟨ha, fun b hb => ⟨fun h => ?_, (hall b hb).2⟩, hnodup⟩
      rcases List.mem_cons.1 h with heq | h
      · exact hnew ⟨b, hb, heq⟩
      · exact (hall b hb).1 h

theorem flaws_eq_nil_iff : r.flaws = [] ↔ r.Sensible := by
  have hroot : (r.get? r.rootAgent).isSome ↔ ∃ a ∈ r.agents, a.name = r.rootAgent := by
    simp [get?]
  have hflaws : r.flaws = [] ↔ agentFlaws [] r.agents = [] ∧
      (r.get? r.rootAgent).isSome := by
    cases h : r.get? r.rootAgent <;> simp [flaws, h]
  rw [hflaws, hroot, agentFlaws_eq_nil_iff]
  constructor
  · rintro ⟨⟨hall, hnodup⟩, hlisted⟩
    exact ⟨hnodup, fun a ha => isAllBlank_eq_false_iff.1 (hall a ha).2, hlisted⟩
  · rintro ⟨hnodup, hworded, hlisted⟩
    refine ⟨⟨fun a ha => ⟨List.not_mem_nil, ?_⟩, hnodup⟩, hlisted⟩
    exact isAllBlank_eq_false_iff.2 (hworded a ha)

variable {r} in
theorem sensible_of_check (h : (check path r).result d = (.ok (), d')) : r.Sensible := by
  rw [check] at h
  split at h
  · next hflaws => exact r.flaws_eq_nil_iff.1 (List.isEmpty_iff.1 hflaws)
  · cases h

/-! ### The text of a registry -/

theorem ofDocument?_toValue : ofDocument? (ofValue r.toValue) = some r := by
  have hfields : Document.fields? ["agents", "rootAgent"] (ofValue r.toValue) = _ :=
    Document.fields?_of_sublist (by decide) (List.Sublist.refl _)
  have hagents : Document.list? Agent.Descriptor.ofDocument?
      (ofValue (.array (r.agents.map Agent.Descriptor.toValue))) = some r.agents :=
    Document.list?_ofValue_array fun a _ => a.ofDocument?_toValue
  have htext : Document.text? (ofValue (.string r.rootAgent)) = some r.rootAgent := rfl
  rw [ofDocument?, hfields]
  simp [Document.Fields.required?, Document.lookup?_ofMembers, hagents, htext]

theorem integral_toValue : r.toValue.Integral := by
  refine ⟨Json.Value.itemsIntegral_iff.2 fun v hv => ?_, trivial, trivial⟩
  obtain ⟨a, -, rfl⟩ := List.mem_map.1 hv
  exact ⟨trivial, trivial, trivial, trivial⟩

theorem depth_toValue : r.toValue.depth ≤ 3 := by
  have hagents : (Json.Value.array (r.agents.map Agent.Descriptor.toValue)).depth ≤ 2 := by
    refine Nat.succ_le_succ (Json.Value.itemsDepth_le_iff.2 fun v hv => ?_)
    obtain ⟨a, -, rfl⟩ := List.mem_map.1 hv
    exact Nat.le_refl 1
  refine Nat.succ_le_succ (Json.Value.membersDepth_le_iff.2 ?_)
  simp only [List.forall_mem_cons]
  exact ⟨hagents, Nat.zero_le 2, List.forall_mem_nil _⟩

theorem parse?_toValue : (Json.parse? (r.toValue.pretty ++ "\n")).bind ofDocument? = some r :=
  Document.bind_parse?_pretty r.depth_toValue r.integral_toValue r.ofDocument?_toValue

end Registry

end AgentChain
