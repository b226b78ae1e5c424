import AgentChain.Action
import AgentChain.Archive.Tar.Reader
import AgentChain.Archive.Tar.Writer
import AgentChain.Bytes.Sha256
import AgentChain.Manifest

/-!
# Packing trees

The regular files of a tree become a compressed tar archive, in ascending order of their names. The
archive is written under another name first, read again to see that it is not empty, and then moved
to its place.
-/

namespace AgentChain.Archive

/-! ### Hashes -/

def hashFile (path : Route) : Action Disk String := do
  let opened ← (OnDisk.read (·.openFile path)).within (.on .openFile path.text)
  let contents ← (Action.ofFault opened.read).within (.on .read path.text)
  return Sha256.hex contents

def sizeOf (path : Route) : Action Disk UInt64 := do
  let opened ← (OnDisk.read (·.openFile path)).within (.on .stat path.text)
  return UInt64.ofNat opened.size

def entryOf (name : String) (contents : Bytes) : FileEntry where
  filename := name
  size := UInt64.ofNat contents.length
  sha256 := Sha256.hex contents

def describeFiles : List Disk.Collected → Action Disk (List FileEntry)
  | [] => return []
  | file :: rest => do
    let size ← sizeOf file.path
    let sha256 ← hashFile file.path
    return { filename := file.name, size, sha256 } :: (← describeFiles rest)

/-- The names, sizes and hashes of the files of a tree, in the order of the names. -/
def describe (path : String) : Action Disk (List FileEntry) := do
  describeFiles (← OnDisk.collect path)

/-! ### Reading -/

def membersOf (opened : Disk.Opened) : Tar.Members :=
  match opened.read with
  | .ok file => Tar.read (Gzip.decode file)
  | .error _ => ⟨[], true⟩

def unreadable (path : String) : Failure :=
  .within (.on .readEntry path) (.fault .malformed)

/-- How many members an archive has. -/
def count (path : String) : Action Disk Nat := do
  let opened ← (OnDisk.read (·.openFile path)).within (.on .openFile path)
  let members := membersOf opened
  if members.faulty then .fail (unreadable path) else return members.found.length

/-- What an archive holds: the start of the file, and the size, the hash and the members of what is
compressed in it. -/
structure Inspection where
  header : Bytes
  size : Nat
  sha256 : String
  members : Nat
  deriving DecidableEq

def Inspection.toValue (i : Inspection) : Json.Value :=
  .object [
    ("gzip_header", .string i.header.hex), ("tar_size", .ofCount i.size),
    ("tar_sha256", .string i.sha256), ("entries", .ofCount i.members)]

def inspect (path : String) : Action Disk Inspection := do
  let file ← OnDisk.readBytes path
  let data := (Gzip.decode file).data
  let members ← count path
  return {
    header := file.take Gzip.header.length
    size := data.length
    sha256 := Sha256.hex data
    members }

/-! ### Writing -/

/-- What was written: the hash and the size of the archive, and its files in their order. -/
structure Summary where
  sha256 : String
  size : UInt64
  files : List FileEntry
  deriving DecidableEq, Repr

def membersFor : List Disk.Collected → Action Disk (Bytes × List FileEntry)
  | [] => return ([], [])
  | file :: rest => do
    let contents ← OnDisk.readBytes file.path
    match Tar.writeMember? file.name contents with
    | none => .fail (.within (.on .append file.name) (.fault .invalidPath))
    | some member =>
      let (bytes, entries) ← membersFor rest
      return (member ++ bytes, entryOf file.name contents :: entries)

def writeMembers [Gzip.Encoder] (files : List Disk.Collected) (path : String) : Action Disk
    (List FileEntry) := do
  (OnDisk.change (·.writeFile path [])).within (.on .create path)
  let (bytes, entries) ← membersFor files
  (OnDisk.change (·.writeFile path (Gzip.encode (bytes ++ Tar.ending)))).within (.on .write path)
  return entries

/-- Write an archive of files, which must not be empty, beside its place. -/
def writeChecked [Gzip.Encoder] (files : List Disk.Collected) (temporary out : String) :
    Action Disk (List FileEntry) := do
  let entries ← writeMembers files temporary
  if (← count temporary) = 0 then .fail (.packaging (.emptyArchive out))
  else return entries

def discard (path : String) : Action Disk Unit := do
  let _ ← (OnDisk.change (·.removeFile path)).attempt

/-- Write the archive of a tree beside its place and move it there. -/
def pack [Gzip.Encoder] (tree out : String) : Action Disk Summary := do
  let files ← OnDisk.collect tree
  OnDisk.createParent out
  match Path.fileName? out with
  | none => .fail (.refusal (.unnamedArchive out))
  | some name =>
    let temporary := Path.withFileName out (name ++ ".tmp")
    match ← (writeChecked files temporary out).attempt with
    | .error f =>
      discard temporary
      .fail f
    | .ok entries =>
      (OnDisk.change (·.rename temporary out)).within (.on .renameInto out)
      let size ← sizeOf out
      let sha256 ← hashFile out
      return { sha256, size, files := entries }

end AgentChain.Archive
