import AgentChain.FileTree.Operations

/-!
# The files of a tree

The regular files below a directory, in ascending order of their relative names. Links below the
directory are neither followed nor listed. The directory itself may be given by a link. A single
file is a tree with that one file and an empty relative name, and a link to a file is a tree without
files.
-/

namespace AgentChain.Disk

/-- What stands below a place, by the names that lead to it from there. -/
def below (d : Disk) (place : Place) : List (Place × Entry) :=
  d.entries.filterMap fun e =>
    if place.isPrefixOf e.1 && place.length < e.1.length then some (e.1.drop place.length, e.2)
    else none

/-- A file of a tree: its relative name, as it is shown, and its path. -/
structure Collected where
  name : String
  path : Route
  deriving DecidableEq, Repr

/-- The names that lead to something, as they are shown. -/
def shown (names : List Name) : String :=
  Text.join "/" (names.map Bytes.lossyText)

/-- The regular files below a place, by the names that lead to them. -/
def filesBelow (d : Disk) (place : Place) : List (List Name) :=
  (d.below place).filterMap fun e =>
    match e.2 with
    | .file _ => some e.1
    | _ => none

/-- The regular files of a tree, in ascending order of their relative names. -/
def collect (d : Disk) (path : Route) : Except Fault (List Collected) :=
  match d.resolve true path with
  | .ok (.present place .directory) =>
    let files : List Collected := (d.filesBelow place).map fun names =>
      { name := shown names, path := { path with names := path.names ++ names } }
    .ok (files.mergeSort fun a b => decide (a.name ≤ b.name))
  | .ok (.present _ (.file _)) =>
    match d.look? path with
    | some (.symlink _) => .ok []
    | _ => .ok [{ name := "", path }]
  | .ok (.present _ (.symlink _)) => .ok []
  | .ok (.vacant _ _) => .error .notFound
  | .error f => .error f

/-- What stands below a directory, but for directories that are not empty, by relative names. -/
def leaves (d : Disk) (path : Route) : List (String × Entry) :=
  match d.canonical? path with
  | .error _ => []
  | .ok place => (d.below place).filterMap fun e =>
    if e.2 = .directory && !(d.namesAt (place ++ e.1)).isEmpty then none
    else some (shown e.1, e.2)

end AgentChain.Disk
