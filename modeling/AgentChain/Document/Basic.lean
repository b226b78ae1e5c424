import AgentChain.Json.Value

/-!
# Document trees

What a written document holds before it is given a type. JSON and TOML texts are both read to such
trees. A table keeps its entries in the order of the text, repeated names included, because a typed
record refuses a repeated field while a plain value lets the last one win.

Some parts of a text are well formed and yet have no value: half of a surrogate pair, a number
beyond the largest float, a container nested too deeply. Such a part is `unreadable`. It spoils
whatever reads it, and does no harm where it is skipped.
-/

namespace AgentChain

inductive Document where
  | null
  | bool (b : Bool)
  | number (n : Json.Number)
  | text (s : String)
  | list (items : List Document)
  | table (entries : List (String × Document))
  | unreadable

namespace Document

instance : Inhabited Document := ⟨.null⟩

mutual

def ofValue : Json.Value → Document
  | .null => .null
  | .bool b => .bool b
  | .number n => .number n
  | .string s => .text s
  | .array items => .list (ofValues items)
  | .object members => .table (ofMembers members)

def ofValues : List Json.Value → List Document
  | [] => []
  | v :: rest => ofValue v :: ofValues rest

def ofMembers : List (String × Json.Value) → List (String × Document)
  | [] => []
  | (name, v) :: rest => (name, ofValue v) :: ofMembers rest

end

mutual

/-- The value of a tree. Members are sorted by name, and the last of several with one name counts.
-/
def value? : Document → Option Json.Value
  | .null => some .null
  | .bool b => some (.bool b)
  | .number n => some (.number n)
  | .text s => some (.string s)
  | .list items => (values? items).map .array
  | .table entries => (members? entries).map fun ms => .object (Json.sortMembers ms)
  | .unreadable => none

def values? : List Document → Option (List Json.Value)
  | [] => some []
  | d :: rest => (value? d).bind fun v => (values? rest).map (v :: ·)

def members? : List (String × Document) → Option (List (String × Json.Value))
  | [] => some []
  | (name, d) :: rest => (value? d).bind fun v => (members? rest).map ((name, v) :: ·)

end

def isReadable (d : Document) : Bool :=
  d.value?.isSome

end Document

end AgentChain
