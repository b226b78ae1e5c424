import AgentChain.Archive.Inflate
import AgentChain.Bytes.Crc32
import AgentChain.FileTree.Path
import AgentChain.Text.CodePage437

/-!
# Zip archives

A zip archive has its entries anywhere and a directory of them near its end. The end of the
directory is found from the end of the file, so bytes before the archive and after it do no harm:
all positions are counted from where the archive starts. A large archive has a second end record
with wide fields.
-/

namespace AgentChain.Zip

structure Entry where
  name : String
  encrypted : Bool
  /-- How the contents are compressed: zero for not at all, eight for deflate. -/
  method : Nat
  checksum : Nat
  compressedSize : Nat
  /-- Where the entry starts in the file. -/
  start : Nat

/-! ### The end of the directory -/

def startsWith (signature : Nat) (b : Bytes) : Bool :=
  b.little? 0 4 = some signature

/-- The last position, counted from `position`, where a signature stands among bytes of which at
least `least` follow. -/
def lastPosition (signature least : Nat) : (position : Nat) → Bytes → Option Nat
  | _, [] => none
  | position, b :: rest =>
    match lastPosition signature least (position + 1) rest with
    | some found => some found
    | none =>
      if startsWith signature ((b :: rest).take 4) && least ≤ ((b :: rest).take least).length then
        some position
      else none

/-- The first position, counted from `position`, where a signature stands, among the next `count`.
-/
def firstPosition (signature : Nat) : (count position : Nat) → Bytes → Option Nat
  | 0, _, _ => none
  | _, _, [] => none
  | count + 1, position, b :: rest =>
    if startsWith signature ((b :: rest).take 4) then some position
    else firstPosition signature count (position + 1) rest

/-- What the end record of a directory says: where the archive starts in the file, where its
directory starts, and how many entries it has. -/
structure Ending where
  offset : Nat
  directoryStart : Nat
  count : Nat

def endSize : Nat := 22

def commentLimit : Nat := 65535

/-- What the wide end record says, which the locator at `locator` points to. -/
def wideEnding? (file locator : Bytes) (multipart : Nat → Bool) (endPosition : Nat) :
    Option Ending := do
  let disk ← locator.little? 4 4
  let nominal ← locator.little? 8 8
  if multipart disk || endPosition < 60 then none
  else
    let position ←
      firstPosition 0x06064b50 (endPosition - 60 + 1 - nominal) nominal (file.drop nominal)
    let record := file.drop position
    let thisDisk ← Bytes.little? record 16 4
    let directoryDisk ← Bytes.little? record 20 4
    let count ← Bytes.little? record 32 8
    let directory ← Bytes.little? record 48 8
    if thisDisk ≠ directoryDisk then none
    else return {
      offset := position - nominal, directoryStart := directory + (position - nominal), count }

def endingAt? (file : Bytes) (position : Nat) : Option Ending := do
  let record := file.drop position
  let thisDisk ← Bytes.little? record 4 2
  let directoryDisk ← Bytes.little? record 6 2
  let count ← Bytes.little? record 8 2
  let total ← Bytes.little? record 10 2
  let size ← Bytes.little? record 12 4
  let directory ← Bytes.little? record 16 4
  let comment ← Bytes.little? record 20 2
  let tooSmall := thisDisk = 0xffff || directoryDisk = 0xffff || count = 0xffff ||
    total = 0xffff || size = 0xffffffff || directory = 0xffffffff
  if record.length < endSize + comment || (!tooSmall && thisDisk ≠ directoryDisk) then none
  else
    let locator := file.drop (file.length - (20 + endSize + comment))
    if 20 + endSize + comment ≤ file.length && startsWith 0x07064b50 locator then
      wideEnding? file locator (fun disk => !tooSmall && thisDisk ≠ disk) position
    else if position < size + directory then none
    else
      let offset := position - size - directory
      return { offset, directoryStart := directory + offset, count }

def ending? (file : Bytes) : Option Ending :=
  let skipped := file.length - (endSize + commentLimit)
  (lastPosition 0x06054b50 endSize skipped (file.drop skipped)).bind (endingAt? file)

/-! ### The directory -/

/-- What the extra fields of an entry may change. -/
structure Variable where
  uncompressed : Nat
  compressed : Nat
  start : Nat
  method : Nat
  /-- Whether a field says how the contents are encrypted. -/
  isSealed : Bool := false

/-- A number that is replaced by a wide one if it has the largest value. -/
def widened (n : Nat) (b : Bytes) : Option (Nat × Bytes) :=
  if n = 0xffffffff then (b.little? 0 8).map (·, b.drop 8) else some (n, b)

/-- Take wide numbers from bytes, and the bytes after them unless they are cut off; those that are
cut off stay as they were. -/
def Variable.widen (v : Variable) (b : Bytes) : Variable × Option Bytes :=
  match widened v.uncompressed b with
  | none => (v, none)
  | some (uncompressed, b) =>
    let v := { v with uncompressed }
    match widened v.compressed b with
    | none => (v, none)
    | some (compressed, b) =>
      let v := { v with compressed }
      match widened v.start b with
      | none => (v, none)
      | some (start, b) => ({ v with start }, some b)

def sealSize : Nat := 7

/-- The method of compression in a field on encryption, if its version, its mark and its strength
are known ones. -/
def sealedMethod? (b : Bytes) : Option Nat :=
  match b.little? 0 2, b.little? 2 2, b.little? 4 1, b.little? 5 2 with
  | some version, some mark, some strength, some method =>
    if (version = 1 || version = 2) && mark = 0x4541 && 1 ≤ strength && strength ≤ 3 then
      some method
    else none
  | _, _, _, _ => none

/-- Go through extra fields. What is cut off changes nothing, but a malformed field on encryption is
refused. After such a field as many bytes again are passed over. -/
def Variable.extend? : (fuel : Nat) → Variable → Bytes → Option Variable
  | 0, v, _ => some v
  | fuel + 1, v, b =>
    match b.little? 0 2, b.little? 2 2 with
    | some kind, some length =>
      let body := b.drop 4
      if kind = 1 then
        match v.widen body with
        | (v, none) => some v
        | (v, some rest) => extend? fuel v (rest.drop (length - (body.length - rest.length)))
      else if kind = 0x9901 then
        if length ≠ sealSize then none
        else if body.length < sealSize then some v
        else (sealedMethod? body).bind fun method =>
          extend? fuel { v with method, isSealed := true } (body.drop (2 * sealSize))
      else extend? fuel v (body.drop length)
    | _, _ => some v

/-- An entry of the directory from its record, and the bytes after the record. -/
def nextRecord? (offset : Nat) (b : Bytes) : Option (Entry × Bytes) := do
  if !startsWith 0x02014b50 b then none
  else
    let flags ← b.little? 8 2
    let method ← b.little? 10 2
    let checksum ← b.little? 16 4
    let compressed ← b.little? 20 4
    let uncompressed ← b.little? 24 4
    let nameLength ← b.little? 28 2
    let extraLength ← b.little? 30 2
    let commentLength ← b.little? 32 2
    let start ← b.little? 42 4
    let name ← b.slice? 46 nameLength
    let extra ← b.slice? (46 + nameLength) extraLength
    let _ ← b.slice? (46 + nameLength + extraLength) commentLength
    let v ← Variable.extend? extraLength ⟨uncompressed, compressed, start, method, false⟩ extra
    if (v.method = 99 && !v.isSealed) || UInt64.size ≤ v.start + offset then none
    else
      let entry : Entry := {
        name := if flags >>> 11 % 2 = 1 then Bytes.lossyText name else Text.codePage437 name
        encrypted := flags % 2 = 1 || v.isSealed
        method := v.method
        checksum
        compressedSize := v.compressed
        start := v.start + offset }
      return (entry, b.drop (46 + nameLength + extraLength + commentLength))

def entries? (offset : Nat) : (fuel count : Nat) → Bytes → Option (List Entry)
  | _, 0, _ => some []
  | 0, _, _ => none
  | fuel + 1, count + 1, b =>
    (nextRecord? offset b).bind fun (entry, b) => (entries? offset fuel count b).map (entry :: ·)

/-- The directory of an archive. No position in a file has more than sixty-three bits. -/
def directory? (file : Bytes) : Option (List Entry) :=
  (ending? file).bind fun e =>
    if 1 <<< 63 ≤ e.directoryStart then none
    else entries? e.offset (file.length + 1) e.count (file.drop e.directoryStart)

/-! ### Entries -/

namespace Entry

/-- Whether a name leads nowhere outside the directory that it is relative to. -/
def isEnclosed (e : Entry) : Bool :=
  !e.name.toList.contains '\x00' && stays 0 (Path.parts e.name)
where
  /-- Whether parts stay inside, once they have led down `depth` levels. -/
  stays : (depth : Nat) → List Path.Part → Bool
    | _, [] => true
    | _, .top :: _ => false
    | depth, .here :: rest => stays depth rest
    | 0, .up :: _ => false
    | depth + 1, .up :: rest => stays depth rest
    | depth, .name _ :: rest => stays (depth + 1) rest

def isDirectory (e : Entry) : Bool :=
  match e.name.toList.getLast? with
  | some c => c = '/' || c = '\\'
  | none => false

/-- The contents of an entry as far as they can be read, and whether they are complete and have the
checksum of the directory. An encrypted entry, one that is compressed in another way and one without
its own header have none. -/
def contents? (file : Bytes) (e : Entry) : Option (Bytes × Bool) :=
  let own := file.drop e.start
  if e.encrypted || !startsWith 0x04034b50 own then none
  else match Bytes.little? own 26 2, Bytes.little? own 28 2 with
    | some nameLength, some extraLength =>
      let packed := (own.drop (30 + nameLength + extraLength)).take e.compressedSize
      match e.method with
      | 0 => some (packed, (Crc32.checksum packed).toNat = e.checksum)
      | 8 =>
        let outcome := Inflate.run packed
        let plain := outcome.delivered 0 packed
        some (plain, outcome.ending = .complete && (Crc32.checksum plain).toNat = e.checksum)
      | _ => none
    | _, _ => none

end Entry

end AgentChain.Zip
