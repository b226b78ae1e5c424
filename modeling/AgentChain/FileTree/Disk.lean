import AgentChain.FileTree.Route
import AgentChain.Json.Value

/-!
# Disks

A disk is a tree of directories, files and symbolic links. Everything on it has a place, the list of
names that leads to it from the top. One file may stand at several places; whatever is written at
one of them is written at all. A route is resolved to a place name by name; a link on the way is
followed, and a link at the end only if the operation wants that. No route leads into a closed
directory, though one may end there.
-/

namespace AgentChain

/-- The names that lead to something from the top of the tree. -/
abbrev Place := List Name

/-- What stands at a place. -/
inductive Entry where
  | file (contents : Bytes)
  | directory
  | symlink (target : Bytes)
  deriving DecidableEq

/-- Why an operation on files fails. -/
inductive Fault where
  | notFound
  | notDirectory
  | isDirectory
  | alreadyExists
  | notEmpty
  | tooManyLinks
  | nameTooLong
  | invalidPath
  | notRegular
  | notPermitted
  | denied
  | notText
  /-- Data that breaks the rules of its format. -/
  | malformed
  deriving DecidableEq, Repr

def Fault.message : Fault → String
  | notFound => "No such file or directory (os error 2)"
  | notDirectory => "Not a directory (os error 20)"
  | isDirectory => "Is a directory (os error 21)"
  | alreadyExists => "File exists (os error 17)"
  | notEmpty => "Directory not empty (os error 39)"
  | tooManyLinks => "Too many levels of symbolic links (os error 40)"
  | nameTooLong => "File name too long (os error 36)"
  | invalidPath => "file name contained an unexpected NUL byte"
  | notRegular => "the source path is neither a regular file nor a symlink to a regular file"
  | notPermitted => "Operation not permitted (os error 1)"
  | denied => "Permission denied (os error 13)"
  | notText => "stream did not contain valid UTF-8"
  | malformed => "malformed data"

/-- A tree of directories, files and links, with the directory where relative paths start. -/
structure Disk where
  entries : List (Place × Entry)
  home : Place
  /-- The groups of places where one and the same file stands. -/
  twins : List (List Place) := []
  /-- The directories that may not be entered. -/
  closed : List Place := []

namespace Disk

def empty : Disk where
  entries := []
  home := []

def get? (d : Disk) (place : Place) : Option Entry :=
  if place = [] then some .directory
  else (d.entries.find? fun e => e.1 = place).map (·.2)

/-- Entries with something put at a place, instead of what stood there. -/
def putEntry (place : Place) (entry : Entry) : List (Place × Entry) → List (Place × Entry)
  | [] => [(place, entry)]
  | e :: rest => if e.1 = place then (place, entry) :: rest else e :: putEntry place entry rest

def put (d : Disk) (place : Place) (entry : Entry) : Disk :=
  { d with entries := putEntry place entry d.entries }

/-- The disk without what stands at the places that go. -/
def without (d : Disk) (gone : Place → Bool) : Disk :=
  { d with
    entries := d.entries.filter fun e => !gone e.1
    twins := d.twins.map (·.filter fun p => !gone p)
    closed := d.closed.filter fun p => !gone p }

def erase (d : Disk) (place : Place) : Disk :=
  d.without fun p => p = place

def eraseTree (d : Disk) (place : Place) : Disk :=
  d.without place.isPrefixOf

/-- A disk with nothing but a directory at its home, and those above it. -/
def ofHome (home : Place) : Disk where
  entries := (List.range home.length).map fun n => (home.take (n + 1), .directory)
  home

/-! ### Files at several places -/

def areTwins (d : Disk) (p q : Place) : Bool :=
  p = q || d.twins.any fun group => group.contains p && group.contains q

/-- The disk with a file written at a place, and wherever else that file stands. -/
def fill (d : Disk) (place : Place) (contents : Bytes) : Disk :=
  let d := d.put place (.file contents)
  if d.twins.isEmpty then d
  else { d with
    entries := d.entries.map fun e =>
      if d.areTwins place e.1 then (e.1, .file contents) else e }

/-- The disk with what stands at `origin` put at another place too. -/
def share (d : Disk) (origin place : Place) (entry : Entry) : Disk :=
  { d.put place entry with
    twins :=
      if d.twins.any (·.contains origin) then
        d.twins.map fun group => if group.contains origin then place :: group else group
      else [origin, place] :: d.twins }

/-- The disk with what stands at `origin` put at another place instead. -/
def move (d : Disk) (origin place : Place) (entry : Entry) : Disk :=
  let cleared := d.erase place
  { (cleared.erase origin).put place entry with
    twins := cleared.twins.map (·.map fun p => if p = origin then place else p) }

/-! ### Resolving routes -/

/-- What a path leads to: an entry, or a place where one can be made. -/
inductive Target where
  | present (place : Place) (entry : Entry)
  /-- Nothing stands at the place, and its directory exists; `slash` says whether the route asks for
  a directory by a slash at its end. -/
  | vacant (place : Place) (slash : Bool)

/-- How far a route can be walked without following a link. -/
inductive Walk where
  | done (target : Target)
  | fault (f : Fault)
  /-- A link in the directory `base` leads to `target`, and `rest` is still to be walked. -/
  | link (base : Place) (target : Bytes) (rest : List Name)

def nameLimit : Nat := 255

/-- Walk segments from a directory up to the next link to follow. -/
def walk (d : Disk) (follow : Bool) (base : Place) : List Name → Walk
  | [] => .done (.present base .directory)
  | segment :: rest =>
    if segment.isEmpty then walk d follow base rest
    else if d.closed.contains base then .fault .denied
    else if segment = Name.here then walk d follow base rest
    else if segment = Name.up then walk d follow base.dropLast rest
    else if nameLimit < segment.length then .fault .nameTooLong
    else
      let place := base ++ [segment]
      match d.get? place with
      | none =>
        if d.get? base = some .directory && rest.all List.isEmpty then
          .done (.vacant place (!rest.isEmpty))
        else .fault .notFound
      | some .directory => walk d follow place rest
      | some (.file contents) =>
        if rest.isEmpty then .done (.present place (.file contents)) else .fault .notDirectory
      | some (.symlink target) =>
        if rest.isEmpty && !follow then .done (.present place (.symlink target))
        else .link base target rest

def linkLimit : Nat := 40

/-- Walk segments from a directory, following at most `links` links. -/
def walkLinks (d : Disk) (follow : Bool) : (links : Nat) → Place → List Name → Except Fault Target
  | links, base, segments =>
    match walk d follow base segments with
    | .done target => .ok target
    | .fault f => .error f
    | .link base target rest =>
      match links with
      | 0 => .error .tooManyLinks
      | links + 1 =>
        walkLinks d follow links (if Name.isAbsolute target then [] else base)
          (Bytes.split Name.slash target ++ rest)

/-- The size in bytes that no route and no target of a link reaches. -/
def pathLimit : Nat := 4096

/-- Where a route leads; a link at its end is followed if `follow` is set. -/
def resolve (d : Disk) (follow : Bool) (route : Route) : Except Fault Target :=
  let path := route.bytes
  if path.isEmpty then .error .notFound
  else if path.contains 0 then .error .invalidPath
  else if pathLimit ≤ path.length then .error .nameTooLong
  else
    walkLinks d follow linkLimit (if Name.isAbsolute path then [] else d.home)
      (Bytes.split Name.slash path)

def placeText (place : Place) : String :=
  "/" ++ Text.join "/" (place.map Bytes.lossyText)

/-- The place that a route leads to through all links, if something stands there. -/
def canonical? (d : Disk) (route : Route) : Except Fault Place :=
  match d.resolve true route with
  | .ok (.present place _) => if (d.get? place).isSome then .ok place else .error .notFound
  | .ok (.vacant _ _) => .error .notFound
  | .error f => .error f

end Disk

end AgentChain
