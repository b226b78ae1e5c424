import AgentChain.Proofs.Json.RoundTrip

/-!
# Values that come back as they were

Writing a value and reading it again may change it in two ways. A float may come back as another
float, and the members of an object come back sorted by name. A value that was itself read has its
members sorted already, so if its numbers are integers, it comes back as it was.
-/

namespace AgentChain

namespace Json

/-! ### Sorted members -/

section Members

variable {α : Type} {members : List (String × α)} {name : String}

/-- The names are in ascending order, each of them once. -/
def Ascending (members : List (String × α)) : Prop :=
  members.Pairwise (·.1 < ·.1)

theorem setMember_of_forall_lt (v : α) (h : ∀ m ∈ members, m.1 < name) :
    setMember name v members = members ++ [(name, v)] := by
  induction members with
  | nil => rfl
  | cons m members ih =>
    have hlt : m.1 < name := h m List.mem_cons_self
    have hne : name ≠ m.1 := by
      rintro rfl
      exact String.lt_irrefl _ hlt
    rw [setMember, if_neg hne, if_neg (String.lt_asymm hlt),
      ih fun m' hm' => h m' (List.mem_cons_of_mem _ hm')]
    rfl

theorem ascending_setMember (v : α) (h : Ascending members) :
    Ascending (setMember name v members) := by
  induction members with
  | nil => exact List.pairwise_singleton _ _
  | cons m members ih =>
    obtain ⟨hm, hmembers⟩ := List.pairwise_cons.mp h
    rw [setMember]
    split_ifs with heq hlt
    · exact List.pairwise_cons.mpr ⟨fun m' hm' => heq ▸ hm m' hm', hmembers⟩
    · refine List.pairwise_cons.mpr ⟨fun m' hm' => ?_, h⟩
      obtain rfl | hm' := List.mem_cons.mp hm'
      · exact hlt
      · exact String.lt_trans hlt (hm m' hm')
    · refine List.pairwise_cons.mpr ⟨fun m' hm' => ?_, ih hmembers⟩
      obtain rfl | hm' := mem_of_mem_setMember hm'
      · exact Std.lt_of_le_of_ne (String.not_lt.mp hlt) (Ne.symm heq)
      · exact hm m' hm'

theorem ascending_sortMembers (members : List (String × α)) : Ascending (sortMembers members) := by
  have hfold : ∀ acc : List (String × α), Ascending acc →
      Ascending (members.foldl (fun acc m => setMember m.1 m.2 acc) acc) := by
    induction members with
    | nil => exact fun acc h => h
    | cons m members ih => exact fun acc h => ih _ (ascending_setMember m.2 h)
  exact hfold [] .nil

theorem sortMembers_of_ascending (h : Ascending members) : sortMembers members = members := by
  -- the members taken in so far are below all that follow
  have hfold : ∀ acc : List (String × α), Ascending (acc ++ members) →
      members.foldl (fun acc m => setMember m.1 m.2 acc) acc = acc ++ members := by
    clear h
    induction members with
    | nil => exact fun acc _ => (List.append_nil acc).symm
    | cons m members ih =>
      intro acc h
      have hbelow : ∀ m' ∈ acc, m'.1 < m.1 := fun m' hm' =>
        (List.pairwise_append.mp h).2.2 m' hm' m List.mem_cons_self
      rw [List.foldl_cons, setMember_of_forall_lt m.2 hbelow, ih _ (by simpa using h)]
      simp
  exact hfold [] h

end Members

/-! ### Sorted values -/

namespace Value

mutual

/-- The members of every object are sorted by name, each name once. -/
def Sorted : Value → Prop
  | .array items => itemsSorted items
  | .object members => Ascending members ∧ membersSorted members
  | _ => True

def itemsSorted : List Value → Prop
  | [] => True
  | v :: rest => Sorted v ∧ itemsSorted rest

def membersSorted : List (String × Value) → Prop
  | [] => True
  | (_, v) :: rest => Sorted v ∧ membersSorted rest

end

mutual

def Integral : Value → Prop
  | .number (.float _ _) => False
  | .array items => itemsIntegral items
  | .object members => membersIntegral members
  | _ => True

def itemsIntegral : List Value → Prop
  | [] => True
  | v :: rest => Integral v ∧ itemsIntegral rest

def membersIntegral : List (String × Value) → Prop
  | [] => True
  | (_, v) :: rest => Integral v ∧ membersIntegral rest

end

theorem membersSorted_iff : membersSorted members ↔ ∀ m ∈ members, m.2.Sorted := by
  induction members with
  | nil => simp [membersSorted]
  | cons m members ih => simp [membersSorted, ih]

theorem Sorted.member? {v w : Value} (hv : v.Sorted) (h : v.member? name = some w) : w.Sorted := by
  cases v with
  | object members => exact membersSorted_iff.mp hv.2 _ (mem_of_lookup? h)
  | _ => cases h

mutual

theorem reread_of_integral (v : Value) (h : v.Integral) : v.reread = v := by
  match v with
  | .null | .bool _ | .string _ => rfl
  | .number (.natural n) => rw [reread, Number.reread_natural]
  | .number (.negative n) => rw [reread, Number.reread_negative]
  | .number (.float x hx) => exact h.elim
  | .array items => rw [reread, rereadItems_of_integral items h]
  | .object members => rw [reread, rereadMembers_of_integral members h]

theorem rereadItems_of_integral (items : List Value) (h : itemsIntegral items) :
    rereadItems items = items := by
  match items with
  | [] => rfl
  | v :: items => rw [rereadItems, reread_of_integral v h.1, rereadItems_of_integral items h.2]

theorem rereadMembers_of_integral (members : List (String × Value)) (h : membersIntegral members) :
    rereadMembers members = members := by
  match members with
  | [] => rfl
  | (name, v) :: members =>
    rw [rereadMembers, reread_of_integral v h.1, rereadMembers_of_integral members h.2]

end

end Value

end Json

namespace Document

mutual

theorem sorted_of_value? (d : Document) (h : d.value? = some v) : v.Sorted := by
  match d with
  | .null | .bool _ | .number _ | .text _ =>
    cases h
    trivial
  | .unreadable => cases h
  | .list items =>
    obtain ⟨vs, hvs, rfl⟩ := Option.map_eq_some_iff.mp h
    exact itemsSorted_of_values? items hvs
  | .table entries =>
    obtain ⟨ms, hms, rfl⟩ := Option.map_eq_some_iff.mp h
    have hsorted := Json.Value.membersSorted_iff.mp (membersSorted_of_members? entries hms)
    exact ⟨Json.ascending_sortMembers ms, Json.Value.membersSorted_iff.mpr fun m hm =>
      hsorted m (Json.mem_of_mem_sortMembers hm)⟩

theorem itemsSorted_of_values? (items : List Document)
    (h : values? items = some vs) : Json.Value.itemsSorted vs := by
  match items with
  | [] =>
    cases h
    trivial
  | d :: items =>
    obtain ⟨v, hv, h⟩ := Option.bind_eq_some_iff.mp h
    obtain ⟨vs, hvs, rfl⟩ := Option.map_eq_some_iff.mp h
    exact ⟨sorted_of_value? d hv, itemsSorted_of_values? items hvs⟩

theorem membersSorted_of_members? (entries : List (String × Document))
    (h : members? entries = some ms) :
    Json.Value.membersSorted ms := by
  match entries with
  | [] =>
    cases h
    trivial
  | (name, d) :: entries =>
    obtain ⟨v, hv, h⟩ := Option.bind_eq_some_iff.mp h
    obtain ⟨ms, hms, rfl⟩ := Option.map_eq_some_iff.mp h
    exact ⟨sorted_of_value? d hv, membersSorted_of_members? entries hms⟩

end

mutual

theorem value?_ofValue (v : Json.Value) (h : v.Sorted) : (ofValue v).value? = some v := by
  match v with
  | .null | .bool _ | .number _ | .string _ => rfl
  | .array items => rw [ofValue, value?, values?_ofValues items h]; rfl
  | .object members =>
    rw [ofValue, value?, members?_ofMembers members h.2, Option.map_some,
      Json.sortMembers_of_ascending h.1]

theorem values?_ofValues (items : List Json.Value) (h : Json.Value.itemsSorted items) :
    values? (ofValues items) = some items := by
  match items with
  | [] => rfl
  | v :: items => rw [ofValues, values?, value?_ofValue v h.1, values?_ofValues items h.2]; rfl

theorem members?_ofMembers (members : List (String × Json.Value))
    (h : Json.Value.membersSorted members) : members? (ofMembers members) = some members := by
  match members with
  | [] => rfl
  | (name, v) :: members =>
    rw [ofMembers, members?, value?_ofValue v h.1, members?_ofMembers members h.2]
    rfl

end

end Document

theorem Json.sorted_of_read? (h : read? s = some v) : v.Sorted := by
  obtain ⟨d, -, hd⟩ := Option.bind_eq_some_iff.mp h
  exact d.sorted_of_value? hd

end AgentChain
