import AgentChain.Document.Record
import AgentChain.Proofs.Json.Fidelity

/-!
# Records that are read back

A record is written as an object with one member for each field, where some fields are left out when
they have no value. The readers of typed values undo this: each field is found under its name, and a
list or a table of values is read back item by item.
-/

namespace AgentChain

namespace Json

variable {α : Type} {name : String}

@[simp] theorem lookup?_nil : lookup? name ([] : List (String × α)) = none :=
  rfl

@[simp] theorem lookup?_cons (m : String × α) (members : List (String × α)) :
    lookup? name (m :: members) = if m.1 = name then some m.2 else lookup? name members := by
  by_cases h : m.1 = name <;> simp [lookup?, h]

@[simp] theorem lookup?_append (members more : List (String × α)) :
    lookup? name (members ++ more) = (lookup? name members).or (lookup? name more) := by
  induction members with
  | nil => simp
  | cons m members ih =>
    rw [List.cons_append, lookup?_cons, lookup?_cons, ih]
    split <;> simp

namespace Value

theorem itemsDepth_le_iff : itemsDepth items ≤ n ↔ ∀ v ∈ items, v.depth ≤ n := by
  induction items with
  | nil => simp [itemsDepth]
  | cons v items ih => simp [itemsDepth, ih]

theorem itemsIntegral_iff : itemsIntegral items ↔ ∀ v ∈ items, v.Integral := by
  induction items with
  | nil => simp [itemsIntegral]
  | cons v items ih => simp [itemsIntegral, ih]

theorem membersIntegral_iff : membersIntegral members ↔ ∀ m ∈ members, m.2.Integral := by
  induction members with
  | nil => simp [membersIntegral]
  | cons m members ih => simp [membersIntegral, ih]

end Value

end Json

namespace Document

open Json (Value)

variable {α : Type} {read : Reader α}

/-! ### Plain values -/

theorem uint32?_natural (n : UInt32) : uint32? (.number (.natural n.toUInt64)) = some n := by
  have hn : n.toNat < UInt32.size := n.toNat_lt
  simp [uint32?, uint64?, hn]

theorem list?_ofValue_array (h : ∀ a ∈ items, read (ofValue (write a)) = some a) :
    list? read (ofValue (.array (items.map write))) = some items := by
  change readAll read (ofValues (items.map write)) = some items
  induction items with
  | nil => rfl
  | cons a items ih =>
    rw [List.map_cons, ofValues, readAll, h a List.mem_cons_self, Option.bind_some,
      ih fun b hb => h b (List.mem_cons_of_mem a hb)]
    rfl

theorem list?_ofTexts (texts : List String) : list? text? (ofValue (.ofTexts texts)) = some texts :=
  list?_ofValue_array fun _ _ => rfl

theorem map?_ofValue_object {write : α → Value}
    (hsorted : Json.Ascending entries) (h : ∀ e ∈ entries, read (ofValue (write e.2)) = some e.2) :
    map? read (ofValue (.object (entries.map fun e => (e.1, write e.2)))) = some entries := by
  have hread : readEntries read (ofMembers (entries.map fun e => (e.1, write e.2))) =
      some entries := by
    clear hsorted
    induction entries with
    | nil => rfl
    | cons e entries ih =>
      rw [List.map_cons, ofMembers, readEntries, h e List.mem_cons_self, Option.bind_some,
        ih fun e' he' => h e' (List.mem_cons_of_mem e he')]
      rfl
  change (readEntries read _).map Json.sortMembers = some entries
  rw [hread, Option.map_some, Json.sortMembers_of_ascending hsorted]

/-! ### Records -/

theorem ofMembers_eq (members : List (String × Value)) :
    ofMembers members = members.map fun m => (m.1, ofValue m.2) := by
  induction members with
  | nil => rfl
  | cons m members ih => rw [ofMembers, ih, List.map_cons]

theorem lookup?_ofMembers (name : String) (members : List (String × Value)) :
    Json.lookup? name (ofMembers members) = (Json.lookup? name members).map ofValue := by
  induction members with
  | nil => rfl
  | cons m members ih =>
    rw [ofMembers, Json.lookup?_cons, Json.lookup?_cons, ih]
    split <;> rfl

theorem allDistinct_iff : allDistinct texts ↔ texts.Nodup := by
  induction texts with
  | nil => simp [allDistinct]
  | cons s texts ih => simp [allDistinct, ih]

/-- The fields of a record that is written with the names of its fields in their order, where some may
be left out. -/
theorem fields?_of_sublist (hnames : names.Nodup) (h : (members.map (·.1)).Sublist names) :
    fields? names (ofValue (.object members)) = some ⟨ofMembers members, false⟩ := by
  have hfound : (ofMembers members).map (·.1) = members.map (·.1) := by
    rw [ofMembers_eq, List.map_map]
    rfl
  have hall : (ofMembers members).filter (fun e => names.contains e.1) = ofMembers members := by
    refine List.filter_eq_self.2 fun e he => ?_
    rw [List.contains_iff_mem]
    exact h.subset (hfound ▸ List.mem_map_of_mem he)
  rw [ofValue, fields?, fieldsUpTo?]
  simp only [hall, hfound]
  rw [if_pos (allDistinct_iff.2 (hnames.sublist h))]

/-- What is written of a shallow value without floats is read as the value. -/
theorem bind_parse?_pretty {v : Value} {read : Document → Option α} (hdepth : v.depth ≤ 3)
    (hintegral : v.Integral) (hread : read (ofValue v) = some a) :
    (Json.parse? (v.pretty ++ "\n")).bind read = some a := by
  rw [Json.parse?_pretty (hdepth.trans (by decide)), Value.reread_of_integral _ hintegral,
    Option.bind_some, hread]

end Document

end AgentChain
