import AgentChain.Archive.Pack
import AgentChain.Archive.Zip

/-!
# Unpacking archives

Artifacts are compressed tar archives; package files are zip archives or compressed tar archives. An
entry whose name leads outside the destination stops the unpacking, and so does one that a link
would bring outside. What was unpacked before stays.
-/

namespace AgentChain.Archive

/-! ### Tar archives -/

/-- Fail unless a path leads inside a destination through all links. -/
def ensureInside (dest path : Route) : Action Disk Unit := do
  let place ← OnDisk.read (·.canonical? path)
  let top ← OnDisk.read (·.canonical? dest)
  if top.isPrefixOf place then return () else .fail (.fault .notPermitted)

/-- Make directories from the top down, each inside the destination. -/
def createInside (dest : Route) : List Route → Action Disk Unit
  | [] => return ()
  | directory :: rest => do
    match directory.parent? with
    | some above => ensureInside dest above
    | none => pure ()
    OnDisk.makeDirectories directory
    createInside dest rest

def ensureDirectory (dest directory : Route) : Action Disk Unit := do
  let missing ← OnDisk.look fun d => directory.ancestors.takeWhile fun p => (d.look? p).isNone
  createInside dest missing.reverse

/-- Make a directory; one that is there already will do, but a link to one will not. It is closed
unless its mode lets it be entered, and stays as it is if it has none. -/
def unpackDirectory (mayEnter? : Option Bool) (path : Route) : Action Disk Unit := do
  OnDisk.changeOr (·.createDirectory path) do
    if (← OnDisk.look (·.look? path)) = some .directory then return ()
    else .fail (.fault .alreadyExists)
  match mayEnter? with
  | some mayEnter => OnDisk.change (·.setClosed path (!mayEnter))
  | none => return ()

def unpackSymlink (target : Bytes) (path : Route) : Action Disk Unit :=
  OnDisk.changeOr (·.symlink target path) do
    OnDisk.change (·.removeFile path)
    OnDisk.change (·.symlink target path)

def targetFrom (place : Place) (target : Bytes) : Route :=
  let segments := target.split Name.slash
  { start := "/", names := if Name.isAbsolute target then segments else place ++ segments }

def unpackHardLink (dest : Route) (target : Bytes) (path : Route) : Action Disk Unit := do
  let top ← OnDisk.read (·.canonical? dest)
  let source := targetFrom top target
  ensureInside dest source
  OnDisk.change (·.hardLink source path)

def unpackFile (m : Tar.Member) (path : Route) : Action Disk Unit := do
  let contents := m.contents
  OnDisk.changeOr (·.createNew path contents) do
    OnDisk.change (·.removeFile path)
    OnDisk.change (·.createNew path contents)
  if contents.length < m.size then .fail (.fault .malformed)

def unpackTo (dest : Route) (m : Tar.Member) (path : Route) : Action Disk Unit :=
  match m.header.kind with
  | .symlink =>
    match m.link? with
    | some target =>
      if target.isEmpty then .fail (.fault .malformed) else unpackSymlink target path
    | none => .fail (.fault .malformed)
  | .hardLink =>
    match m.link? with
    | some target =>
      if target.isEmpty then .fail (.fault .malformed) else unpackHardLink dest target path
    | none => .fail (.fault .malformed)
  | kind =>
    if kind.isRemark then return ()
    else if m.isDirectory then unpackDirectory m.header.mayEnter? path
    else unpackFile m path

/-- Unpack a member below a destination. A member without a name is passed over. -/
def unpackMember (archive dest : String) (m : Tar.Member) : Action Disk Unit :=
  match m.names? with
  | none => .fail (.refusal (.archiveEscape archive m.path))
  | some names =>
    if names.isEmpty then return ()
    else Action.within (.on .unpack m.path) do
      let directory : Route := { start := dest, names := names.dropLast }
      ensureDirectory dest directory
      ensureInside dest directory
      unpackTo dest m { start := dest, names }

def unpackMembers (archive dest : String) : List Tar.Member → Action Disk Unit
  | [] => return ()
  | m :: rest => do
    unpackMember archive dest m
    unpackMembers archive dest rest

/-- Unpack a tar archive into a directory. -/
def unpack (archive dest : String) : Action Disk Unit := do
  let opened ← (OnDisk.read (·.openFile archive)).within (.on .openFile archive)
  OnDisk.createDirectories dest
  let members := membersOf opened
  unpackMembers archive dest members.found
  if members.faulty then .fail (unreadable archive)

/-! ### Zip archives -/

def unpackEntry (archive dest : String) (file : Bytes) (index : Nat) (e : Zip.Entry) :
    Action Disk Unit :=
  match e.contents? file with
  | none => .fail (.within (.readEntryAt index archive) (.fault .malformed))
  | some (contents, sound) =>
    if !e.isEnclosed then .fail (.refusal (.wheelEscape archive e.name))
    else
      let target := Path.join dest e.name
      if e.isDirectory then OnDisk.createDirectories target
      else do
        OnDisk.createParent target
        (OnDisk.change (·.writeFile target contents)).within (.on .create target)
        if !sound then .fail (.within (.on .unpack e.name) (.fault .malformed))

/-- Unpack entries in their order, the first of which has the given index. -/
def unpackEntries (archive dest : String) (file : Bytes) :
    (index : Nat) → List Zip.Entry → Action Disk Unit
  | _, [] => return ()
  | index, e :: rest => do
    unpackEntry archive dest file index e
    unpackEntries archive dest file (index + 1) rest

/-- Unpack the entries that a zip archive lists, unless its directory is malformed. -/
def unpackListed (archive dest : String) (file : Bytes) : Option (List Zip.Entry) → Action Disk Unit
  | none => .fail (.within (.on .readZipDirectory archive) (.fault .malformed))
  | some entries => unpackEntries archive dest file 0 entries

def unpackContents (archive dest : String) : Except Fault Bytes → Action Disk Unit
  | .error f => .fail (.within (.on .readZipDirectory archive) (.fault f))
  | .ok file => unpackListed archive dest file (Zip.directory? file)

/-- Unpack a zip archive into a directory. -/
def unpackWheel (archive dest : String) : Action Disk Unit := do
  let opened ← (OnDisk.read (·.openFile archive)).within (.on .openFile archive)
  OnDisk.createDirectories dest
  unpackContents archive dest opened.read

/-! ### Package files -/

def hasEnding (name ending : String) : Bool :=
  ending.toList.isSuffixOf (name.toList.map Char.toLower)

/-- Unpack a package file by the ending of its name. -/
def unpackPackage (archive dest : String) : Action Disk Unit :=
  let name := (Path.fileName? archive).getD ""
  if hasEnding name ".whl" || hasEnding name ".zip" then unpackWheel archive dest
  else if hasEnding name ".tar.gz" || hasEnding name ".tgz" then unpack archive dest
  else .fail (.refusal (.packageFormat archive))

end AgentChain.Archive
