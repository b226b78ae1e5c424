import AgentChain.Json.Value

/-!
# Schemas of JSON values

A schema is a conjunction of keywords. A keyword that is about objects or about texts asks nothing
of a value of another kind: `required` and `property` hold of everything that is no object, and
`minLength` holds of everything that is no text. A condition that holds in this way counts as any
other.
-/

namespace AgentChain

/-- The kinds of values that a schema can ask for. -/
inductive Schema.Kind where
  | object
  | text
  | number
  deriving DecidableEq, Repr

inductive Schema where
  | anything
  | kind (k : Schema.Kind)
  /-- A text has at least so many characters. -/
  | minLength (n : Nat)
  /-- The value is one of these texts. -/
  | among (texts : List String)
  /-- An object has members with these names. -/
  | required (names : List String)
  /-- The member with a name, if there is one, follows a schema. -/
  | property (name : String) (schema : Schema)
  | both (first second : Schema)
  /-- If a value follows the first schema, it follows the second. -/
  | ifThen (condition consequence : Schema)

namespace Schema

def all (schemas : List Schema) : Schema :=
  schemas.foldr both anything

def Kind.includes : Kind → Json.Value → Bool
  | object, .object _ => true
  | text, .string _ => true
  | number, .number _ => true
  | _, _ => false

/-- How a value breaks a keyword. -/
inductive Breach where
  | kind (expected : Kind)
  | short (n : Nat)
  | unexpected (texts : List String)
  | lacking (name : String)
  deriving DecidableEq, Repr

def Kind.name : Kind → String
  | object => "object"
  | text => "string"
  | number => "number"

def Breach.message : Breach → String
  | kind k => s!"value is not of type \"{k.name}\""
  | short n => s!"value is shorter than {n} characters"
  | unexpected texts => "value is not one of " ++ ", ".intercalate (texts.map fun t => s!"\"{t}\"")
  | lacking name => s!"\"{name}\" is a required property"

def breaches : Schema → Json.Value → List Breach
  | anything, _ => []
  | kind k, v => if k.includes v then [] else [.kind k]
  | minLength n, v =>
    match v with
    | .string s => if s.length < n then [.short n] else []
    | _ => []
  | among texts, v => if texts.any fun t => v.text? = some t then [] else [.unexpected texts]
  | required names, v =>
    if v.isObject then (names.filter fun name => (v.member? name).isNone).map .lacking else []
  | property name schema, v =>
    match v.member? name with
    | some m => schema.breaches m
    | none => []
  | both first second, v => first.breaches v ++ second.breaches v
  | ifThen condition consequence, v =>
    if condition.breaches v = [] then consequence.breaches v else []

/-! ### Values that break nothing -/

section Breaches

variable {v : Json.Value}

attribute [local simp] breaches

@[simp] theorem breaches_anything : anything.breaches v = [] :=
  rfl

@[simp] theorem breaches_kind {k : Kind} : (kind k).breaches v = [] ↔ k.includes v = true := by
  simp

@[simp] theorem breaches_minLength {n : Nat} :
    (minLength n).breaches v = [] ↔ ∀ s, v = .string s → n ≤ s.length := by
  cases v <;> simp

@[simp] theorem breaches_among {texts : List String} :
    (among texts).breaches v = [] ↔ ∃ t ∈ texts, v = .string t := by
  cases v <;> simp [Json.Value.text?]

@[simp] theorem breaches_required {names : List String} : (required names).breaches v = [] ↔
    (v.isObject = true → ∀ name ∈ names, ∃ m, v.member? name = some m) := by
  cases h : v.isObject <;> simp [h, ← Option.isSome_iff_exists, Option.isSome_iff_ne_none]

@[simp] theorem breaches_property {name : String} {schema : Schema} :
    (property name schema).breaches v = [] ↔
      ∀ m, v.member? name = some m → schema.breaches m = [] := by
  cases h : v.member? name <;> simp [h]

@[simp] theorem breaches_both {first second : Schema} :
    (both first second).breaches v = [] ↔ first.breaches v = [] ∧ second.breaches v = [] := by
  simp

@[simp] theorem breaches_ifThen {condition consequence : Schema} :
    (ifThen condition consequence).breaches v = [] ↔
      (condition.breaches v = [] → consequence.breaches v = []) := by
  by_cases h : condition.breaches v = [] <;> simp [h]

@[simp] theorem breaches_all {schemas : List Schema} :
    (all schemas).breaches v = [] ↔ ∀ schema ∈ schemas, schema.breaches v = [] := by
  induction schemas with
  | nil => simp [all]
  | cons schema rest ih => simpa [all] using fun _ => ih

end Breaches

end Schema

end AgentChain
