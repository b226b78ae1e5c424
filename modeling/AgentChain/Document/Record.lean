import AgentChain.Document.Basic

/-!
# Typed reading of documents

Readers turn document trees into typed values. A record is written as a table of its fields, where
unknown names are skipped and a repeated field is an error, or as a list of its fields in the order
of their declaration. A field that may be absent counts as absent only in a table, unless it has a
default.
-/

namespace AgentChain.Document

/-- A partial function from trees. -/
abbrev Reader (α : Type) := Document → Option α

/-! ### Plain values -/

def text? : Reader String
  | .text s => some s
  | _ => none

def uint64? : Reader UInt64
  | .number (.natural n) => some n
  | _ => none

def uint32? (d : Document) : Option UInt32 :=
  d.uint64?.bind fun n => if n.toNat < UInt32.size then some n.toUInt32 else none

def float? : Reader Float
  | .number n => some n.toFloat
  | _ => none

def readAll {α : Type} (read : Reader α) : List Document → Option (List α)
  | [] => some []
  | d :: rest => (read d).bind fun a => (readAll read rest).map (a :: ·)

def list? {α : Type} (read : Reader α) : Reader (List α)
  | .list items => readAll read items
  | _ => none

def readEntries {α : Type} (read : Reader α) : List (String × Document) → Option (List (String × α))
  | [] => some []
  | (name, d) :: rest => (read d).bind fun a => (readEntries read rest).map ((name, a) :: ·)

/-- A table from names to values of one kind, sorted by name; the last entry of a name counts. -/
def map? {α : Type} (read : Reader α) : Reader (List (String × α))
  | .table entries => (readEntries read entries).map Json.sortMembers
  | _ => none

def option? {α : Type} (read : Reader α) : Reader (Option α)
  | .null => some none
  | d => (read d).map some

/-- One of several named alternatives, written as its name or as a table from its name to `null`. -/
def choice? {α : Type} (alternatives : List (String × α)) : Reader α
  | .text s => Json.lookup? s alternatives
  | .table [(s, .null)] => Json.lookup? s alternatives
  | _ => none

/-! ### Records -/

structure Fields where
  found : List (String × Document)
  /-- Whether the record was written as a list. -/
  inOrder : Bool

def allDistinct : List String → Bool
  | [] => true
  | s :: rest => !rest.contains s && allDistinct rest

/-- The fields of a record with the given names, in the order of their declaration, where `surplus`
says whether a list may go on after the last field. -/
def fieldsUpTo? (surplus : Bool) (names : List String) : Reader Fields
  | .table entries =>
    let known := entries.filter fun e => names.contains e.1
    if allDistinct (known.map (·.1)) then some ⟨known, false⟩ else none
  | .list items =>
    if surplus || items.length ≤ names.length then some ⟨names.zip items, true⟩ else none
  | _ => none

/-- The fields of a record with the given names, in the order of their declaration. -/
def fields? (names : List String) : Reader Fields :=
  fieldsUpTo? false names

namespace Fields

def required? {α : Type} (f : Fields) (name : String) (read : Reader α) : Option α :=
  (Json.lookup? name f.found).bind read

def optional? {α : Type} (f : Fields) (name : String) (read : Reader α) : Option (Option α) :=
  match Json.lookup? name f.found with
  | some d => option? read d
  | none => if f.inOrder then none else some none

def withDefault? {α : Type} (f : Fields) (name : String) (fallback : α) (read : Reader α) :
    Option α :=
  match Json.lookup? name f.found with
  | some d => read d
  | none => some fallback

end Fields

end AgentChain.Document
