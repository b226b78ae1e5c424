/-!
# Sets of names

A set of names is kept as a list in strictly ascending order, so that two sets with the same members
are the same list and walking a set visits its members in order.
-/

namespace AgentChain.Text

/-- A set of names, in ascending order. -/
abbrev NameSet := List String

namespace NameSet

def insert (name : String) : NameSet → NameSet
  | [] => [name]
  | other :: rest =>
    if name = other then other :: rest
    else if name < other then name :: other :: rest
    else other :: insert name rest

def ofList (names : List String) : NameSet :=
  names.foldl (fun set name => insert name set) []

/-- A name is a member of the set it was added to, along with the members from before. -/
@[simp] theorem mem_insert {name x : String} {set : NameSet} :
    x ∈ insert name set ↔ x = name ∨ x ∈ set := by
  induction set with
  | nil => simp [insert]
  | cons other rest ih =>
    rw [insert]
    split
    · next h => subst h; simp
    · split
      · simp
      · simp only [List.mem_cons, ih]
        exact or_left_comm

private theorem mem_foldl_insert {x : String} (names : List String) (set : NameSet) :
    x ∈ names.foldl (fun set name => insert name set) set ↔ x ∈ names ∨ x ∈ set := by
  induction names generalizing set with
  | nil => simp
  | cons name rest ih =>
    rw [List.foldl_cons, ih, mem_insert, List.mem_cons]
    constructor
    · rintro (h | h | h)
      · exact .inl (.inr h)
      · exact .inl (.inl h)
      · exact .inr h
    · rintro ((h | h) | h)
      · exact .inr (.inl h)
      · exact .inl h
      · exact .inr (.inr h)

@[simp] theorem mem_ofList {x : String} {names : List String} : x ∈ ofList names ↔ x ∈ names := by
  simp [ofList, mem_foldl_insert]

theorem pairwise_lt_insert {name : String} {set : NameSet} (h : set.Pairwise (· < ·)) :
    (insert name set).Pairwise (· < ·) := by
  induction set with
  | nil => simp [insert]
  | cons other rest ih =>
    obtain ⟨above, ordered⟩ := List.pairwise_cons.mp h
    rw [insert]
    split
    · exact h
    · next ne =>
      split
      · next lt =>
        refine List.pairwise_cons.mpr ⟨fun x hx => ?_, h⟩
        rcases List.mem_cons.mp hx with rfl | hx
        · exact lt
        · exact String.lt_trans lt (above x hx)
      · next nlt =>
        refine List.pairwise_cons.mpr ⟨fun x hx => ?_, ih ordered⟩
        rcases mem_insert.mp hx with rfl | hx
        · exact Std.lt_of_le_of_ne (String.not_lt.mp nlt) (Ne.symm ne)
        · exact above x hx

private theorem pairwise_lt_foldl_insert (names : List String) {set : NameSet}
    (h : set.Pairwise (· < ·)) :
    (names.foldl (fun set name => insert name set) set).Pairwise (· < ·) := by
  induction names generalizing set with
  | nil => exact h
  | cons name rest ih => exact ih (pairwise_lt_insert h)

theorem pairwise_lt_ofList (names : List String) : (ofList names).Pairwise (· < ·) :=
  pairwise_lt_foldl_insert names List.Pairwise.nil

end NameSet

end AgentChain.Text
