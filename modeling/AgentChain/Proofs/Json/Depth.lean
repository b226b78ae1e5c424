import AgentChain.Json.Parser
import Mathlib.Tactic.Common
import Mathlib.Order.MinMax

/-!
# How deep documents are nested

A container below the 127 levels that have a value is read as unreadable, so every value that was
read is nested at most that deep. A member is nested less deep than the object that it is in.
-/

namespace AgentChain

open Option (map_eq_some_iff)

/-! ### Depths -/

namespace Json.Value

mutual

def depth : Value → Nat
  | .array items => itemsDepth items + 1
  | .object members => membersDepth members + 1
  | _ => 0

def itemsDepth : List Value → Nat
  | [] => 0
  | v :: rest => max v.depth (itemsDepth rest)

def membersDepth : List (String × Value) → Nat
  | [] => 0
  | (_, v) :: rest => max v.depth (membersDepth rest)

end

theorem membersDepth_le_iff : membersDepth members ≤ n ↔ ∀ m ∈ members, m.2.depth ≤ n := by
  induction members with
  | nil => simp [membersDepth]
  | cons m members ih => simp [membersDepth, ih]

end Json.Value

namespace Document

mutual

def depth : Document → Nat
  | .list items => itemsDepth items + 1
  | .table entries => entriesDepth entries + 1
  | _ => 0

def itemsDepth : List Document → Nat
  | [] => 0
  | d :: rest => max d.depth (itemsDepth rest)

def entriesDepth : List (String × Document) → Nat
  | [] => 0
  | (_, d) :: rest => max d.depth (entriesDepth rest)

end

theorem entriesDepth_le_iff : entriesDepth entries ≤ n ↔ ∀ e ∈ entries, e.2.depth ≤ n := by
  induction entries with
  | nil => simp [entriesDepth]
  | cons e entries ih => simp [entriesDepth, ih]

end Document

namespace Json

theorem Value.depth_lt_of_member? {v w : Value} (h : v.member? name = some w) :
    w.depth < v.depth := by
  cases v with
  | object members =>
    rw [depth]
    exact Nat.lt_succ_of_le (membersDepth_le_iff.mp le_rfl (name, w) (mem_of_lookup? h))
  | _ => cases h

end Json

/-! ### The value of a document -/

namespace Document

mutual

theorem depth_le_of_value? (d : Document) (h : d.value? = some v) : v.depth ≤ d.depth := by
  match d with
  | .null | .bool _ | .number _ | .text _ =>
    cases h
    exact Nat.le_refl 0
  | .unreadable => cases h
  | .list items =>
    obtain ⟨vs, hvs, rfl⟩ := map_eq_some_iff.mp h
    exact Nat.succ_le_succ (itemsDepth_le_of_values? items hvs)
  | .table entries =>
    obtain ⟨ms, hms, rfl⟩ := map_eq_some_iff.mp h
    have hle := Json.Value.membersDepth_le_iff.mp (membersDepth_le_of_members? entries hms)
    exact Nat.succ_le_succ
      (Json.Value.membersDepth_le_iff.mpr fun m hm => hle m (Json.mem_of_mem_sortMembers hm))

theorem itemsDepth_le_of_values? (items : List Document)
    (h : values? items = some vs) : Json.Value.itemsDepth vs ≤ itemsDepth items := by
  match items with
  | [] =>
    cases h
    exact Nat.le_refl 0
  | d :: items =>
    obtain ⟨v, hv, h⟩ := Option.bind_eq_some_iff.mp h
    obtain ⟨vs, hvs, rfl⟩ := map_eq_some_iff.mp h
    exact max_le_max (depth_le_of_value? d hv) (itemsDepth_le_of_values? items hvs)

theorem membersDepth_le_of_members? (entries : List (String × Document))
    (h : members? entries = some ms) :
    Json.Value.membersDepth ms ≤ entriesDepth entries := by
  match entries with
  | [] =>
    cases h
    exact Nat.le_refl 0
  | (name, d) :: entries =>
    obtain ⟨v, hv, h⟩ := Option.bind_eq_some_iff.mp h
    obtain ⟨ms, hms, rfl⟩ := map_eq_some_iff.mp h
    exact max_le_max (depth_le_of_value? d hv) (membersDepth_le_of_members? entries hms)

end

end Document

/-! ### Scanned documents -/

namespace Json

theorem depth_within (h : d.depth ≤ room - 1 + 1) : (within room d).depth ≤ room := by
  rw [within]
  split_ifs with hroom
  · exact Nat.zero_le room
  · omega

theorem depth_tableOf (h : ∀ e ∈ entries, e.2.depth ≤ n) : (tableOf entries).depth ≤ n + 1 := by
  rw [tableOf]
  split_ifs
  · refine Nat.succ_le_succ (Document.entriesDepth_le_iff.mpr fun e he => ?_)
    obtain ⟨entry, hentry, rfl⟩ := List.mem_map.mp he
    exact h entry hentry
  · exact Nat.zero_le _

mutual

theorem depth_le_of_scanValue (fuel : Nat)
    (h : scanValue fuel room cs = some (d, rest)) : d.depth ≤ room := by
  match fuel with
  | 0 => cases h
  | fuel + 1 =>
    rw [scanValue] at h
    split at h
    · split at h
      · cases h
        exact depth_within (Nat.le_add_left 1 _)
      · obtain ⟨⟨es, r⟩, hes, heq⟩ := map_eq_some_iff.mp h
        cases heq
        exact depth_within (depth_tableOf (depth_le_of_scanMembers fuel hes))
    · split at h
      · cases h
        exact depth_within (Nat.le_add_left 1 _)
      · obtain ⟨⟨ds, r⟩, hds, heq⟩ := map_eq_some_iff.mp h
        cases heq
        exact depth_within (Nat.succ_le_succ (itemsDepth_le_of_scanItems fuel hds))
    · obtain ⟨⟨s, r⟩, -, heq⟩ := map_eq_some_iff.mp h
      cases heq
      cases s <;> exact Nat.zero_le room
    iterate 3
      · obtain ⟨r, -, heq⟩ := map_eq_some_iff.mp h
        cases heq
        exact Nat.zero_le room
    · obtain ⟨⟨n, r⟩, -, heq⟩ := map_eq_some_iff.mp h
      cases heq
      cases n <;> exact Nat.zero_le room

theorem itemsDepth_le_of_scanItems (fuel : Nat) (h : scanItems fuel room cs = some (ds, rest)) :
    Document.itemsDepth ds ≤ room := by
  match fuel with
  | 0 => cases h
  | fuel + 1 =>
    rw [scanItems] at h
    obtain ⟨⟨d, r⟩, hd, h⟩ := Option.bind_eq_some_iff.mp h
    have hdepth := depth_le_of_scanValue fuel hd
    dsimp only at h
    split at h
    · obtain ⟨⟨ds, r'⟩, hds, heq⟩ := map_eq_some_iff.mp h
      cases heq
      exact max_le hdepth (itemsDepth_le_of_scanItems fuel hds)
    · cases h
      exact max_le hdepth (Nat.zero_le room)
    · cases h

theorem depth_le_of_scanMembers (fuel : Nat) (h : scanMembers fuel room cs = some (es, rest)) :
    ∀ e ∈ es, e.2.depth ≤ room := by
  match fuel with
  | 0 => cases h
  | fuel + 1 =>
    rw [scanMembers] at h
    split at h
    · obtain ⟨⟨name, r⟩, -, h⟩ := Option.bind_eq_some_iff.mp h
      dsimp only at h
      split at h
      · obtain ⟨⟨d, r'⟩, hd, h⟩ := Option.bind_eq_some_iff.mp h
        have hdepth := depth_le_of_scanValue fuel hd
        dsimp only at h
        split at h
        · obtain ⟨⟨es, r''⟩, hes, heq⟩ := map_eq_some_iff.mp h
          cases heq
          exact List.forall_mem_cons.mpr ⟨hdepth, depth_le_of_scanMembers fuel hes⟩
        · cases h
          exact List.forall_mem_singleton.mpr hdepth
        · cases h
      · cases h
    · cases h

end

theorem depth_le_of_read? (h : read? s = some v) : v.depth ≤ depthLimit := by
  obtain ⟨d, hd, hv⟩ := Option.bind_eq_some_iff.mp h
  refine (Document.depth_le_of_value? d hv).trans ?_
  rw [parse?, parseChars?] at hd
  split at hd
  · rename_i d' rest hscan
    split_ifs at hd
    cases hd
    exact depth_le_of_scanValue _ hscan
  · cases hd

end Json

end AgentChain
