import AgentChain.FileTree.Disk
import AgentChain.Text.NameSet

/-!
# Operations on disks

Looking, reading, writing and removing, each by a route. An operation that fails leaves the
disk as it was; making a directory with its ancestors is several operations, and those that
succeeded stay.
-/

namespace AgentChain.Disk

/-! ### Looking -/

def follow? (d : Disk) (path : Route) : Option Entry :=
  match d.resolve true path with
  | .ok (.present _ entry) => some entry
  | _ => none

def look? (d : Disk) (path : Route) : Option Entry :=
  match d.resolve false path with
  | .ok (.present _ entry) => some entry
  | _ => none

def exists? (d : Disk) (path : Route) : Bool :=
  (d.follow? path).isSome

def isFile (d : Disk) (path : Route) : Bool :=
  match d.follow? path with
  | some (.file _) => true
  | _ => false

def isDirectory (d : Disk) (path : Route) : Bool :=
  match d.follow? path with
  | some .directory => true
  | _ => false

/-! ### Reading -/

/-- What is opened for reading: a file, or a directory, from which nothing can be read. -/
inductive Opened where
  | file (contents : Bytes)
  | directory

def Opened.read : Opened → Except Fault Bytes
  | file contents => .ok contents
  | directory => .error .isDirectory

/-- The size; that of a directory says nothing about it. -/
def Opened.size : Opened → Nat
  | file contents => contents.length
  | directory => 4096

def openFile (d : Disk) (path : Route) : Except Fault Opened :=
  match d.resolve true path with
  | .ok (.present _ (.file contents)) => .ok (.file contents)
  | .ok (.present _ _) => .ok .directory
  | .ok (.vacant _ _) => .error .notFound
  | .error f => .error f

def readBytes (d : Disk) (path : Route) : Except Fault Bytes :=
  match d.openFile path with
  | .ok opened => opened.read
  | .error f => .error f

def readText (d : Disk) (path : Route) : Except Fault String :=
  match d.readBytes path with
  | .ok contents => match contents.text? with
    | some s => .ok s
    | none => .error .notText
  | .error f => .error f

def namesAt (d : Disk) (place : Place) : List Name :=
  d.entries.filterMap fun e => if e.1.dropLast = place then e.1.getLast? else none

/-- The names in a directory that are texts, in ascending order. -/
def names (d : Disk) (path : Route) : Except Fault Text.NameSet :=
  match d.resolve true path with
  | .ok (.present place .directory) => .ok (.ofList ((d.namesAt place).filterMap Bytes.text?))
  | .ok (.present _ _) => .error .notDirectory
  | .ok (.vacant _ _) => .error .notFound
  | .error f => .error f

/-! ### Writing -/

/-- The place of a file that is written through all links: an existing file or a new one. -/
def writePlace (d : Disk) (path : Route) : Except Fault Place :=
  match d.resolve true path with
  | .ok (.present place (.file _)) => .ok place
  | .ok (.present _ _) => .error .isDirectory
  | .ok (.vacant place false) => .ok place
  | .ok (.vacant _ true) => .error .isDirectory
  | .error f => .error f

def writeFile (d : Disk) (path : Route) (contents : Bytes) : Except Fault Disk :=
  (d.writePlace path).map fun place => d.fill place contents

def append (d : Disk) (path : Route) (contents : Bytes) : Except Fault Disk :=
  (d.writePlace path).map fun place =>
    match d.get? place with
    | some (.file before) => d.fill place (before ++ contents)
    | _ => d.fill place contents

def newPlace (d : Disk) (path : Route) : Except Fault Place :=
  match d.resolve false path with
  | .ok (.vacant place false) => .ok place
  | .ok (.vacant _ true) => .error .isDirectory
  | .ok (.present _ _) => .error .alreadyExists
  | .error f => .error f

def createNew (d : Disk) (path : Route) (contents : Bytes) : Except Fault Disk :=
  (d.newPlace path).map fun place => d.put place (.file contents)

def symlink (d : Disk) (target : Bytes) (path : Route) : Except Fault Disk :=
  if target.contains 0 then .error .invalidPath
  else if pathLimit ≤ target.length then .error .nameTooLong
  else (d.newPlace path).map fun place => d.put place (.symlink target)

def hardLink (d : Disk) (source path : Route) : Except Fault Disk :=
  match d.resolve false source with
  | .ok (.present _ .directory) => .error .notPermitted
  | .ok (.present origin entry) => (d.newPlace path).map fun place => d.share origin place entry
  | .ok (.vacant _ _) => .error .notFound
  | .error f => .error f

/-- Copy a file. A file that is copied onto itself is emptied first. -/
def copy (d : Disk) (source path : Route) : Except Fault Disk :=
  match d.resolve true source with
  | .ok (.present origin (.file contents)) =>
    (d.writePlace path).map fun place =>
      d.fill place (if d.areTwins place origin then [] else contents)
  | .ok (.present _ _) => .error .notRegular
  | .ok (.vacant _ _) => .error .notFound
  | .error f => .error f

/-- Move a file or a link, instead of a file or a link with the new name. Nothing happens if both
are names of one file. -/
def rename (d : Disk) (source path : Route) : Except Fault Disk :=
  match d.resolve false source, d.resolve false path with
  | .error f, _ => .error f
  | .ok (.vacant _ _), _ => .error .notFound
  | .ok (.present _ .directory), _ => .error .notPermitted
  | .ok (.present _ _), .error f => .error f
  | .ok (.present _ _), .ok (.present _ .directory) => .error .isDirectory
  | .ok (.present _ _), .ok (.vacant _ true) => .error .notDirectory
  | .ok (.present origin entry), .ok (.present place _) =>
    .ok (if d.areTwins origin place then d else d.move origin place entry)
  | .ok (.present origin entry), .ok (.vacant place false) => .ok (d.move origin place entry)

/-! ### Directories -/

def createDirectory (d : Disk) (path : Route) : Except Fault Disk :=
  match d.resolve false path with
  | .ok (.vacant place _) => .ok (d.put place .directory)
  | .ok (.present _ _) => .error .alreadyExists
  | .error f => .error f

/-- Make a directory, given its path followed by the paths of its ancestors. -/
def createChain : (paths : List Route) → Disk → Except Fault Unit × Disk
  | [], d => (.error .notFound, d)
  | path :: ancestors, d =>
    if path.isEmpty then (.ok (), d)
    else match d.createDirectory path with
      | .ok d => (.ok (), d)
      | .error .notFound =>
        match createChain ancestors d with
        | (.error f, d) => (.error f, d)
        | (.ok (), d) =>
          match d.createDirectory path with
          | .ok d => (.ok (), d)
          | .error f => if d.isDirectory path then (.ok (), d) else (.error f, d)
      | .error f => if d.isDirectory path then (.ok (), d) else (.error f, d)

/-- Make a directory and the missing ones above it. Those that could be made stay if it fails. -/
def createDirectories (d : Disk) (path : Route) : Except Fault Unit × Disk :=
  createChain path.ancestors d

def setClosed (d : Disk) (path : Route) (closed : Bool) : Except Fault Disk :=
  (d.canonical? path).map fun place =>
    let others := d.closed.filter (· ≠ place)
    { d with closed := if closed then place :: others else others }

/-! ### Removing -/

def removeFile (d : Disk) (path : Route) : Except Fault Disk :=
  match d.resolve false path with
  | .ok (.present _ .directory) => .error .isDirectory
  | .ok (.present place _) => .ok (d.erase place)
  | .ok (.vacant _ _) => .error .notFound
  | .error f => .error f

def removeTree (d : Disk) (path : Route) : Except Fault Disk :=
  match d.resolve false path with
  | .ok (.present place .directory) => .ok (d.eraseTree place)
  | .ok (.present place (.symlink _)) => .ok (d.erase place)
  | .ok (.present _ (.file _)) => .error .notDirectory
  | .ok (.vacant _ _) => .error .notFound
  | .error f => .error f

end AgentChain.Disk
