import AgentChain.Document.Basic

/-!
# Trees of a TOML text

A TOML text defines one table of tables. How a table came about decides what may still be added to
it: a table opened by a header is closed to dotted keys from elsewhere and to a second header, a
table that a header only implied may be opened once, and a table made by dotted keys cannot be
opened at all.
-/

namespace AgentChain.Toml

inductive Origin where
  /-- A header names it. -/
  | header
  /-- A header names a table within it. -/
  | implied
  /-- A dotted key leads through it. -/
  | dotted
  deriving DecidableEq, Repr

inductive Node where
  | leaf (d : Document)
  | table (origin : Origin) (entries : List (String × Node))
  /-- Tables under a doubled header, oldest first. -/
  | tables (items : List (List (String × Node)))

/-- The entries of a table under construction. -/
abbrev Entries := List (String × Node)

def replace (name : String) (node : Node) (es : Entries) : Entries :=
  es.map fun e => if e.1 == name then (name, node) else e

def changeLast (change : Entries → Option Entries) : List Entries → Option (List Entries)
  | [] => none
  | [es] => (change es).map fun es => [es]
  | es :: rest => (changeLast change rest).map (es :: ·)

def openTable : (path : List String) → Entries → Option Entries
  | [], _ => none
  | [name], es =>
    match Json.lookup? name es with
    | none => some (es ++ [(name, .table .header [])])
    | some (.table .implied inner) => some (replace name (.table .header inner) es)
    | some _ => none
  | name :: rest, es =>
    match Json.lookup? name es with
    | none => (openTable rest []).map fun inner => es ++ [(name, .table .implied inner)]
    | some (.table origin inner) =>
      (openTable rest inner).map fun inner => replace name (.table origin inner) es
    | some (.tables items) =>
      (changeLast (openTable rest) items).map fun items => replace name (.tables items) es
    | some (.leaf _) => none

def openItem : (path : List String) → Entries → Option Entries
  | [], _ => none
  | [name], es =>
    match Json.lookup? name es with
    | none => some (es ++ [(name, .tables [[]])])
    | some (.tables items) => some (replace name (.tables (items ++ [[]])) es)
    | some _ => none
  | name :: rest, es =>
    match Json.lookup? name es with
    | none => (openItem rest []).map fun inner => es ++ [(name, .table .implied inner)]
    | some (.table origin inner) =>
      (openItem rest inner).map fun inner => replace name (.table origin inner) es
    | some (.tables items) =>
      (changeLast (openItem rest) items).map fun items => replace name (.tables items) es
    | some (.leaf _) => none

/-- Give a value to a dotted key. The table right above the last part must have been made by dotted
keys too, unless it is the one that the key is written in. -/
def assign (d : Document) : (key : List String) → Entries → Option Entries
  | [], _ => none
  | [name], es =>
    match Json.lookup? name es with
    | none => some (es ++ [(name, .leaf d)])
    | some _ => none
  | name :: rest, es =>
    match Json.lookup? name es with
    | none => (assign d rest []).map fun inner => es ++ [(name, .table .dotted inner)]
    | some (.table .dotted inner) =>
      (assign d rest inner).map fun inner => replace name (.table .dotted inner) es
    | some (.table .implied inner) =>
      if rest.length = 1 then none
      else (assign d rest inner).map fun inner => replace name (.table .implied inner) es
    | some (.tables items) =>
      if rest.length = 1 then none
      else (changeLast (assign d rest) items).map fun items => replace name (.tables items) es
    | some (.table .header _) => none
    | some (.leaf _) => none

/-- Give a value to a dotted key in the table that a header opened. -/
def assignUnder (d : Document) (key : List String) :
    (header : List String) → Entries → Option Entries
  | [], es => assign d key es
  | name :: rest, es =>
    match Json.lookup? name es with
    | some (.table origin inner) =>
      (assignUnder d key rest inner).map fun inner => replace name (.table origin inner) es
    | some (.tables items) =>
      (changeLast (assignUnder d key rest) items).map fun items => replace name (.tables items) es
    | _ => none

mutual

def Node.document : Node → Document
  | .leaf d => d
  | .table _ entries => .table (entryDocuments entries)
  | .tables items => .list (itemDocuments items)

def entryDocuments : List (String × Node) → List (String × Document)
  | [] => []
  | (name, node) :: rest => (name, node.document) :: entryDocuments rest

def itemDocuments : List (List (String × Node)) → List Document
  | [] => []
  | es :: rest => .table (entryDocuments es) :: itemDocuments rest

end

def document (es : Entries) : Document :=
  .table (entryDocuments es)

end AgentChain.Toml
