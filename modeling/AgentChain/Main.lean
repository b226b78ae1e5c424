import AgentChain.CommandLine.Console

/-!
# The program

The files that a command can reach are read into a disk, the command is performed there, and what it
changed is written back. Links are read as what they lead to. There is no connection, so a download
fails and only packages that are already vendored can be used.
-/

namespace AgentChain.Program

/-- The place that a path leads to from a directory, by its segments alone. -/
def placeOf (home : Place) (path : String) : Place :=
  (Path.parts path).foldl (fun place part =>
    match part with
    | .top => []
    | .up => place.dropLast
    | .name s => place ++ [Bytes.ofText s]
    | .here => place) home

def withParents (d : Disk) (place : Place) : Disk :=
  (List.range place.length).foldl (fun d n =>
    if n = 0 || (d.get? (place.take n)).isSome then d else d.put (place.take n) .directory) d

def readInto : (depth : Nat) → Place → Disk → IO Disk
  | 0, _, d => return d
  | depth + 1, place, d => do
    let path := Disk.placeText place
    try
      let real ← IO.FS.realPath path
      if ← real.isDir then
        let mut d := (withParents d place).put place .directory
        for e in ← real.readDir do
          d ← readInto depth (place ++ [Bytes.ofText e.fileName]) d
        return d
      else
        let contents ← IO.FS.readBinFile path
        return (withParents d place).put place (.file contents.data.toList)
    catch _ => return d

def depthLimit : Nat := 64

/-- Read what stands at paths, but for what lies below a path that was read before. -/
def readPaths (done : List Place) (d : Disk) : List String → IO Disk
  | [] => return d
  | path :: rest => do
    let place := placeOf d.home path
    if done.any (·.isPrefixOf place) then readPaths done d rest
    else readPaths (place :: done) (← readInto depthLimit place d) rest

/-- The paths that a request reaches, but for those that its configuration names. -/
def reached : CommandLine.Request → List String
  | .perform root (.vendor catalog) => [root, catalog]
  | .perform root (.build catalog) => [root, catalog]
  | .perform root _ => [root]
  | _ => []

def configured (d : Disk) : CommandLine.Request → List String
  | .perform root _ =>
    match ((Config.loadWorkspace root).result d).1 with
    | .ok c => [c.distDir root, c.vendorDir root, c.runtimeDir root]
    | .error _ => []
  | _ => []

/-- Write one changed entry. A link is written as the file that it leads to. -/
def writeEntry (after : Disk) (place : Place) : Entry → IO Unit
  | .directory => IO.FS.createDirAll (Disk.placeText place)
  | .file contents => IO.FS.writeBinFile (Disk.placeText place) ⟨contents.toArray⟩
  | .symlink _ =>
    match after.readBytes (Disk.placeText place) with
    | .ok contents => IO.FS.writeBinFile (Disk.placeText place) ⟨contents.toArray⟩
    | .error _ => return ()

/-- Remove one entry, unless it went with the directory above it. -/
def removeEntry (place : Place) : Entry → IO Unit
  | .directory => try IO.FS.removeDirAll (Disk.placeText place) catch _ => return ()
  | _ => try IO.FS.removeFile (Disk.placeText place) catch _ => return ()

/-- Write back what has changed: removals first, and directories before what they hold. -/
def writeBack (before after : Disk) : IO Unit := do
  for (place, entry) in before.entries do
    if (after.get? place).isNone then removeEntry place entry
  let changed := after.entries.filter fun e => before.get? e.1 != some e.2
  for (place, entry) in changed.mergeSort fun a b => decide (a.1.length ≤ b.1.length) do
    writeEntry after place entry

/-- The time, taken from a file that was just made. -/
def time : IO Timestamp :=
  IO.FS.withTempFile fun _ path => do
    let modified := (← path.metadata).modified
    return ⟨modified.sec.toNat * 1000 + modified.nsec.toNat / 1000000⟩

/-- The identifier that a seed has at a number, in the form of a random one. -/
def identifier (seed : Bytes) (n : Nat) : String :=
  let digits := (Sha256.hex (seed ++ Bytes.little 8 n)).toList
  let part (start count : Nat) : String := String.ofList ((digits.drop start).take count)
  part 0 8 ++ "-" ++ part 8 4 ++ "-4" ++ part 13 3 ++ "-a" ++ part 17 3 ++ "-" ++ part 20 12

end AgentChain.Program

open AgentChain AgentChain.Program

def main (args : List String) : IO UInt32 := do
  let request := CommandLine.parse args
  let home := placeOf [] (← IO.FS.realPath ".").toString
  let disk ← readPaths [] (.ofHome home) (reached request)
  let disk ← readPaths ((reached request).map (placeOf home)) disk (configured disk request)
  let seed ← IO.getRandomBytes 16
  let world : World := {
    disk, reported := [], logs := [], clock := ← time, supply := identifier seed.data.toList,
    drawn := 0 }
  let (code, console) := CommandLine.run args world
  writeBack disk console.world.disk
  IO.print console.stdout
  IO.eprint console.stderr
  return code
