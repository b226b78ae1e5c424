/-!
# JSON values

Payloads, configurations of agents and event fields are JSON values. An integer that fits sixty-four
bits is kept apart from a float, so that `1` and `1.0` stay what they are. An object is a list of
members; the values that reading produces have their members sorted by name, each name once.
-/

namespace AgentChain.Json

/-- A number: an integer that fits sixty-four bits, or a finite float. -/
inductive Number where
  | natural (n : UInt64)
  /-- The negative integer `-(n + 1)`. -/
  | negative (n : Fin (1 <<< 63))
  | float (x : Float) (finite : x.isFinite = true)

namespace Number

def toFloat : Number → Float
  | natural n => n.toFloat
  | negative n => -(UInt64.ofNat (n.val + 1)).toFloat
  | float x _ => x

def ofFloat? (x : Float) : Option Number :=
  if h : x.isFinite then some (.float x h) else none

def toUInt64? : Number → Option UInt64
  | natural n => some n
  | _ => none

end Number

/-- A JSON value. -/
inductive Value where
  | null
  | bool (b : Bool)
  | number (n : Number)
  | string (s : String)
  | array (items : List Value)
  | object (members : List (String × Value))

instance : Inhabited Value := ⟨.null⟩

/-- Put a member among members sorted by name, in place of one with its name. -/
def setMember {α : Type} (name : String) (v : α) : List (String × α) → List (String × α)
  | [] => [(name, v)]
  | (other, w) :: rest =>
    if name = other then (name, v) :: rest
    else if name < other then (name, v) :: (other, w) :: rest
    else (other, w) :: setMember name v rest

/-- Members sorted by name, where the last of several with one name counts. -/
def sortMembers {α : Type} (members : List (String × α)) : List (String × α) :=
  members.foldl (fun acc m => setMember m.1 m.2 acc) []

def lookup? {α : Type} (name : String) (members : List (String × α)) : Option α :=
  (members.find? fun m => m.1 == name).map (·.2)

section Members

variable {α : Type} {name : String} {v : α} {members : List (String × α)}

theorem mem_of_mem_setMember {m : String × α}
    (h : m ∈ setMember name v members) : m = (name, v) ∨ m ∈ members := by
  induction members with
  | nil => exact .inl (List.mem_singleton.mp h)
  | cons other rest ih =>
    rw [setMember] at h
    split at h
    · grind
    · split at h <;> grind

theorem mem_of_mem_sortMembers {m : String × α} (h : m ∈ sortMembers members) : m ∈ members := by
  have hfold : ∀ acc : List (String × α),
      m ∈ members.foldl (fun acc m => setMember m.1 m.2 acc) acc → m ∈ acc ∨ m ∈ members := by
    clear h
    induction members with
    | nil => exact fun acc h => .inl h
    | cons other rest ih =>
      intro acc h
      obtain h | h := ih _ h
      · obtain rfl | h := mem_of_mem_setMember h
        · exact .inr List.mem_cons_self
        · exact .inl h
      · exact .inr (List.mem_cons_of_mem _ h)
  simpa using hfold [] h

theorem mem_of_lookup? (h : lookup? name members = some v) : (name, v) ∈ members := by
  obtain ⟨⟨other, w⟩, hfind, rfl⟩ := Option.map_eq_some_iff.mp h
  obtain rfl : other = name := by simpa using List.find?_some hfind
  exact List.mem_of_find?_eq_some hfind

theorem lookup?_setMember (name : String) (v : α) (members : List (String × α)) :
    lookup? name (setMember name v members) = some v := by
  induction members with
  | nil => simp [setMember, lookup?]
  | cons other rest ih =>
    rw [setMember]
    split
    · simp [lookup?]
    · rename_i hne
      split
      · simp [lookup?]
      · simpa [lookup?, List.find?_cons, Ne.symm hne] using ih

theorem lookup?_setMember_of_ne {other : String} (h : name ≠ other) (v : α)
    (members : List (String × α)) :
    lookup? name (setMember other v members) = lookup? name members := by
  induction members with
  | nil => simp [setMember, lookup?, h.symm]
  | cons m rest ih =>
    rw [setMember]
    split
    · rename_i heq
      simp [lookup?, h.symm, ← heq]
    · split
      · simp [lookup?, List.find?_cons, h.symm]
      · by_cases hname : m.1 = name
        · simp [lookup?, hname]
        · simpa [lookup?, List.find?_cons, hname] using ih

/-- What is found under a name does not depend on the members under another name. -/
theorem lookup?_filter_ne {other : String} (h : name ≠ other) (members : List (String × α)) :
    lookup? name (members.filter fun m => m.1 ≠ other) = lookup? name members := by
  induction members with
  | nil => rfl
  | cons m rest ih =>
    by_cases hm : m.1 = other
    · simpa [lookup?, List.find?_cons, hm, h.symm] using ih
    · by_cases hname : m.1 = name
      · simp [lookup?, hname, h]
      · simpa [lookup?, List.find?_cons, hm, hname] using ih

end Members

namespace Value

def ofUInt64 (n : UInt64) : Value :=
  .number (.natural n)

def ofUInt32 (n : UInt32) : Value :=
  .number (.natural n.toUInt64)

def ofCount (n : Nat) : Value :=
  .number (.natural (UInt64.ofNat n))

/-- A float, where a float that is not finite has no written form and becomes `null`. -/
def ofFloat (x : Float) : Value :=
  (Number.ofFloat? x).elim .null .number

def ofOption {α : Type} (f : α → Value) : Option α → Value
  | none => .null
  | some a => f a

def ofTexts (texts : List String) : Value :=
  .array (texts.map .string)

/-- The value of a member of an object; other values have no members. -/
def member? (v : Value) (name : String) : Option Value :=
  match v with
  | .object members => lookup? name members
  | _ => none

def text? : Value → Option String
  | .string s => some s
  | _ => none

def float? : Value → Option Float
  | .number n => some n.toFloat
  | _ => none

def natural? : Value → Option UInt64
  | .number n => n.toUInt64?
  | _ => none

def items? : Value → Option (List Value)
  | .array items => some items
  | _ => none

def isObject : Value → Bool
  | .object _ => true
  | _ => false

end Value

end AgentChain.Json
