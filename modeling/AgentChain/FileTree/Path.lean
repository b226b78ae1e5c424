import AgentChain.Text.Lines

/-!
# Written paths

A path is a text, and it is shown as it was written. Joining puts a slash between two paths, unless
the second one is absolute and replaces the first. Repeated slashes, a trailing slash and inner `.`
parts are no parts of a path, but they stay in its text.
-/

namespace AgentChain.Path

def isAbsolute (p : String) : Bool :=
  p.toList.head? = some '/'

def join (base p : String) : String :=
  if isAbsolute p then p
  else if base.isEmpty || base.toList.getLast? = some '/' then base ++ p
  else base ++ "/" ++ p

def segments (p : String) : List String :=
  Text.split '/' p

inductive Part where
  | top
  /-- The directory itself, at the start of a relative path. -/
  | here
  | up
  | name (s : String)
  deriving DecidableEq, Repr

def part? (segment : String) : Option Part :=
  if segment = "" || segment = "." then none
  else if segment = ".." then some .up
  else some (.name segment)

def parts (p : String) : List Part :=
  let rest := (segments p).filterMap part?
  if isAbsolute p then .top :: rest
  else if (segments p).head? = some "." then .here :: rest
  else rest

/-- The segments of a path from the last to the first, without those at the end that are no parts.
The segment before the first slash of an absolute path is left out. -/
def backward (p : String) : List String :=
  let absolute := isAbsolute p
  let body := if absolute then (segments p).drop 1 else segments p
  trim absolute body.reverse
where
  /-- Drop what is no part of the path. -/
  trim (absolute : Bool) : List String → List String
    | [] => []
    | s :: rest =>
      if s = "" || (s = "." && (absolute || !rest.isEmpty)) then trim absolute rest else s :: rest

/-- The path like `p` that has the given segments, from the last to the first. -/
def rebuild (p : String) (segments : List String) : String :=
  (if isAbsolute p then "/" else "") ++ Text.join "/" segments.reverse

/-- The directory that a path lies in; the top of the tree and the empty path have none. -/
def parent? (p : String) : Option String :=
  match backward p with
  | [] => none
  | _ :: rest => some (rebuild p (backward.trim (isAbsolute p) rest))

def fileName? (p : String) : Option String :=
  match (parts p).getLast? with
  | some (.name s) => some s
  | _ => none

def withFileName (p name : String) : String :=
  match fileName? p, parent? p with
  | some _, some directory => join directory name
  | _, _ => join p name

/-- A name without its extension; a point at its start begins no extension. -/
def stem (name : String) : String :=
  let cs := name.toList.reverse
  let before := (cs.dropWhile (· ≠ '.')).drop 1
  if before.isEmpty then name else String.ofList before.reverse

def withExtension (p extension : String) : String :=
  match fileName? p, backward p with
  | some name, _ :: rest => rebuild p ((stem name ++ "." ++ extension) :: rest)
  | _, _ => p

def ancestors (p : String) : List String :=
  go (segments p).length p
where
  /-- At most `n` directories above a path. -/
  go : (n : Nat) → String → List String
    | 0, p => [p]
    | n + 1, p =>
      match parent? p with
      | none => [p]
      | some directory => p :: go n directory

end AgentChain.Path
