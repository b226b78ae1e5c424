import AgentChain.Bytes.Basic
import AgentChain.FileTree.Path

/-!
# Routes

The name of a file is a sequence of bytes, which need not be a text. A route is a written path
together with names that lead on from there, so that it reaches files whose names are no texts. A
written path is a route by itself.
-/

namespace AgentChain

abbrev Name := Bytes

namespace Name

def slash : UInt8 := 0x2f

def here : Name := [0x2e]

def up : Name := [0x2e, 0x2e]

def isIdle (segment : Name) : Bool :=
  segment.isEmpty || segment = here

def isAbsolute (path : Bytes) : Bool :=
  path.head? = some slash

/-- The bytes of a path with a name after it. -/
def below (path : Bytes) (name : Name) : Bytes :=
  if path.isEmpty || path.getLast? = some slash then path ++ name else path ++ slash :: name

end Name

/-- A written path and the names that lead on from there. -/
structure Route where
  start : String
  names : List Name := []
  deriving DecidableEq, Repr

instance : Coe String Route := ⟨fun start => { start := start }⟩

namespace Route

def text (r : Route) : String :=
  r.names.foldl (fun path name => Path.join path name.lossyText) r.start

/-- The bytes of a route as it is followed. -/
def bytes (r : Route) : Bytes :=
  r.names.foldl Name.below (Bytes.ofText r.start)

def parent? (r : Route) : Option Route :=
  if r.names.isEmpty then (Path.parent? r.start).map fun start => { start := start }
  else some { r with names := r.names.dropLast }

def ancestors (r : Route) : List Route :=
  (List.range r.names.length).map (fun n =>
    { r with names := r.names.take (r.names.length - n) }) ++
    (Path.ancestors r.start).map fun start => { start := start }

def isEmpty (r : Route) : Bool :=
  r.names.isEmpty && (Path.parts r.start).isEmpty

end Route

end AgentChain
