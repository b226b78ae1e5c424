import AgentChain.Proofs.Document

/-!
# What comes back of a value

A value that is written and read comes back with its structure: texts as they were, numbers as
numbers, and an object with the same names, each with what comes back of its value. This holds of
every value that can be read at all. Nothing is read from a text that goes on after its value.
-/

namespace AgentChain.Json

/-! ### Members with different names -/

section Members

variable {α : Type} {members more : List (String × α)} {name : String} {v : α}

theorem Ascending.nodup_names (h : Ascending members) : (members.map (·.1)).Nodup := by
  refine List.Pairwise.map _ (fun a b hab => ?_) h
  rintro heq
  exact String.lt_irrefl _ (heq ▸ hab)

theorem Ascending.eq_of_perm (h : Ascending members) (hmore : Ascending more)
    (hperm : members.Perm more) : members = more :=
  hperm.eq_of_pairwise (fun _ _ _ _ hab hba => absurd hab (String.lt_asymm hba)) h hmore

theorem perm_setMember (v : α) (h : name ∉ members.map (·.1)) :
    (setMember name v members).Perm ((name, v) :: members) := by
  induction members with
  | nil => exact .refl _
  | cons m members ih =>
    obtain ⟨hne, hmembers⟩ := not_or.mp (List.mem_cons.not.mp h)
    rw [setMember, if_neg hne]
    split
    · exact .refl _
    · exact ((ih hmembers).cons m).trans (.swap _ _ _)

theorem perm_sortMembers (h : (members.map (·.1)).Nodup) : (sortMembers members).Perm members := by
  -- the names of the members sorted so far do not come again
  have hfold : ∀ acc : List (String × α), ((acc ++ members).map (·.1)).Nodup →
      (members.foldl (fun acc m => setMember m.1 m.2 acc) acc).Perm (acc ++ members) := by
    clear h
    induction members with
    | nil => exact fun acc _ => .of_eq (List.append_nil acc).symm
    | cons m members ih =>
      intro acc hnodup
      have hswap : (acc ++ m :: members).Perm ((m :: acc) ++ members) := List.perm_middle
      have hm : m.1 ∉ acc.map (·.1) := by
        have hcons := (hswap.map (·.1)).nodup_iff.mp hnodup
        rw [List.cons_append, List.map_cons, List.map_append] at hcons
        exact fun hmem => (List.nodup_cons.mp hcons).1 (List.mem_append_left _ hmem)
      have hset := (perm_setMember m.2 hm).append_right members
      exact (ih _ (((hset.trans hswap.symm).map (·.1)).nodup_iff.mpr hnodup)).trans
        (hset.trans hswap.symm)
  exact hfold [] h

theorem lookup?_eq_none_iff : lookup? name members = none ↔ name ∉ members.map (·.1) := by
  induction members with
  | nil => simp
  | cons m members ih =>
    rw [lookup?_cons, List.map_cons, List.mem_cons, not_or, ← ih]
    split <;> simp_all [eq_comm]

theorem lookup?_eq_some_iff (h : (members.map (·.1)).Nodup) :
    lookup? name members = some v ↔ (name, v) ∈ members := by
  refine ⟨mem_of_lookup?, fun hmem => ?_⟩
  induction members with
  | nil => exact absurd hmem List.not_mem_nil
  | cons m members ih =>
    obtain ⟨hm, hmembers⟩ := List.nodup_cons.mp h
    rw [lookup?_cons]
    obtain rfl | hmem := List.mem_cons.mp hmem
    · exact if_pos rfl
    · have hne : m.1 ≠ name := fun heq => hm (List.mem_map.mpr ⟨_, hmem, heq.symm⟩)
      rw [if_neg hne, ih hmembers hmem]

theorem lookup?_sortMembers (h : (members.map (·.1)).Nodup) :
    lookup? name (sortMembers members) = lookup? name members := by
  have hperm := perm_sortMembers h
  have hsorted : ((sortMembers members).map (·.1)).Nodup := (hperm.map (·.1)).nodup_iff.2 h
  refine Option.ext fun v => ?_
  rw [lookup?_eq_some_iff hsorted, lookup?_eq_some_iff h, hperm.mem_iff]

end Members

/-! ### Values that come back -/

namespace Value

variable {v w : Value} {members : List (String × Value)} {name : String}

/-- A value comes back as another when it is written and read. -/
def Returns (v w : Value) : Prop :=
  (Document.ofValue v.reread).value? = some w

theorem returns_of_within (h : (Document.ofValueWithin room v.reread).value? = some w) :
    v.Returns w ∧ v.depth ≤ room := by
  have hdepth := Document.depth_le_of_value?_within _ h
  rw [Document.ofValueWithin_of_depth_le _ hdepth] at h
  exact ⟨h, v.depth_reread ▸ hdepth⟩

theorem returns_of_read? (h : read? v.compact = some w) : v.Returns w := by
  rw [read?, parse?_compact, Option.bind_some] at h
  exact (returns_of_within h).1

theorem exists_read?_compact (h : v.depth ≤ depthLimit) :
    ∃ w, read? v.compact = some w ∧ v.Returns w := by
  obtain ⟨w, hw⟩ := Document.exists_value?_ofValue v.reread
  refine ⟨w, ?_, hw⟩
  rw [read?, parse?_compact, Option.bind_some,
    Document.ofValueWithin_of_depth_le _ (v.depth_reread.trans_le h), hw]

namespace Returns

theorem sorted (h : v.Returns w) : w.Sorted :=
  Document.sorted_of_value? _ h

theorem eq_string (h : (Value.string s).Returns w) : w = .string s :=
  (Option.some.inj h).symm

theorem eq_null (h : Value.null.Returns w) : w = .null :=
  (Option.some.inj h).symm

theorem exists_number (h : (Value.number n).Returns w) : ∃ n', w = .number n' :=
  ⟨_, (Option.some.inj h).symm⟩

theorem exists_members (name : String)
    (h : Document.members? (Document.ofMembers (rereadMembers members)) = some ms) :
    ms.map (·.1) = members.map (·.1) ∧
      ∀ v, lookup? name members = some v → ∃ w, lookup? name ms = some w ∧ v.Returns w := by
  induction members generalizing ms with
  | nil =>
    cases h
    simp
  | cons m members ih =>
    obtain ⟨w, hw, h⟩ := Option.bind_eq_some_iff.1 h
    obtain ⟨rest, hrest, rfl⟩ := Option.map_eq_some_iff.1 h
    obtain ⟨hnames, hfound⟩ := ih hrest
    refine ⟨by rw [List.map_cons, List.map_cons, hnames], fun v hv => ?_⟩
    rw [lookup?_cons] at hv ⊢
    split at hv
    · next heq =>
      cases hv
      exact ⟨w, if_pos heq, hw⟩
    · next hne =>
      obtain ⟨u, hu, hreturns⟩ := hfound v hv
      exact ⟨u, (if_neg hne).trans hu, hreturns⟩

theorem exists_object (h : (Value.object members).Returns w) :
    ∃ ms, Document.members? (Document.ofMembers (rereadMembers members)) = some ms ∧
      w = .object (sortMembers ms) := by
  obtain ⟨ms, hms, rfl⟩ := Option.map_eq_some_iff.1 h
  exact ⟨ms, hms, rfl⟩

section

variable (h : (Value.object members).Returns w) (hnames : (members.map (·.1)).Nodup)
include h hnames

theorem member?_eq_none (hname : lookup? name members = none) : w.member? name = none := by
  obtain ⟨ms, hms, rfl⟩ := h.exists_object
  have heq := (exists_members name hms).1
  rw [member?, lookup?_sortMembers (heq ▸ hnames), lookup?_eq_none_iff, heq]
  exact lookup?_eq_none_iff.1 hname

theorem exists_member?
    (hname : lookup? name members = some v) : ∃ u, w.member? name = some u ∧ v.Returns u := by
  obtain ⟨ms, hms, rfl⟩ := h.exists_object
  obtain ⟨heq, hfound⟩ := exists_members name hms
  obtain ⟨u, hu, hreturns⟩ := hfound v hname
  exact ⟨u, by rw [member?, lookup?_sortMembers (heq ▸ hnames), hu], hreturns⟩

theorem of_member?
    (hname : lookup? name members = some v) (hu : w.member? name = some u) : v.Returns u := by
  obtain ⟨u', hu', hreturns⟩ := h.exists_member? hnames hname
  obtain rfl := Option.some.inj (hu'.symm.trans hu)
  exact hreturns

end

theorem eq_object (h : v.Returns w) (hv : v.isObject) : ∃ ms, w = .object ms := by
  cases v with
  | object members =>
    obtain ⟨ms, -, rfl⟩ := h.exists_object
    exact ⟨_, rfl⟩
  | _ => cases hv

end Returns

end Value

theorem parse?_of_trailing (v : Value) (hblanks : ∀ c ∈ blanks, isSpace c) :
    parse? (String.ofList (v.compactChars ++ (blanks ++ '\x7b' :: rest))) = none := by
  have hends : EndsNumber (blanks ++ '\x7b' :: rest) := endsNumber_blanks hblanks rest (by simp)
  have hskip : skipSpace (blanks ++ '\x7b' :: rest) = '\x7b' :: rest := by
    rw [skipSpace_blanks hblanks, skipSpace_cons rfl]
  rw [parse?, String.toList_ofList, parseChars?, ← Value.spaced_none 0,
    scanValue_spaced .none 0 v (by rw [List.length_append]; omega) hends]
  simp [hskip]

end AgentChain.Json
