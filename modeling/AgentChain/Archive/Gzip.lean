import AgentChain.Archive.Inflate
import AgentChain.Bytes.Crc32

/-!
# Gzip files

A gzip file is a header, compressed data, and the checksum and the length of what was compressed. A
reader gets the decompressed bytes as far as they go and then either the end or a fault: the
checksum is looked at only by a reader that goes on to the end. Whatever follows the first such file
is ignored. How bytes are compressed is left open: what is made of an archive depends only on what
its readers get.
-/

namespace AgentChain.Gzip

/-- What a reader gets: bytes, and then the end or a fault. -/
structure Stream where
  data : Bytes
  /-- Whether the bytes are followed by the end, and not by a fault. -/
  sound : Bool

/-- The header of the files made here: no name, no time, and an unknown system. -/
def header : Bytes :=
  [0x1f, 0x8b, 8, 0, 0, 0, 0, 0, 0, 0xff]

/-! ### Reading -/

def hasFlag (flags : UInt8) (bit : Nat) : Bool :=
  flags.toNat >>> bit % 2 = 1

def dropExtra? (flags : UInt8) (b : Bytes) : Option Bytes :=
  if hasFlag flags 2 then
    (b.little? 0 2).bind fun n => if n + 2 ≤ b.length then some (b.drop (n + 2)) else none
  else some b

def textLimit : Nat := 65535

/-- The bytes after a text that ends in a zero, if the flags announce one. -/
def dropText? (flags : UInt8) (bit : Nat) (b : Bytes) : Option Bytes :=
  if hasFlag flags bit then
    if textLimit < (b.takeWhile (· ≠ 0)).length then none
    else match b.dropWhile (· ≠ 0) with
      | [] => none
      | _ :: rest => some rest
  else some b

/-- The bytes after the checksum of the header, if the flags announce one; it must be right. -/
def dropChecksum? (flags : UInt8) (file b : Bytes) : Option Bytes :=
  if hasFlag flags 1 then
    let before := file.take (file.length - b.length)
    (b.little? 0 2).bind fun n =>
      if n = (Crc32.checksum before).toNat % 65536 then some (b.drop 2) else none
  else some b

def dropHeader? (file : Bytes) : Option Bytes :=
  match file with
  | 0x1f :: 0x8b :: 8 :: flags :: _ :: _ :: _ :: _ :: _ :: _ :: rest =>
    if 32 ≤ flags.toNat then none
    else (dropExtra? flags rest).bind fun b => (dropText? flags 3 b).bind fun b =>
      (dropText? flags 4 b).bind fun b => dropChecksum? flags file b
  | _ => none

/-- Whether the checksum and the length after the compressed data are those of the bytes. -/
def isSound (data rest : Bytes) : Bool :=
  rest.little? 0 4 = some (Crc32.checksum data).toNat &&
    rest.little? 4 4 = some (data.length % UInt32.size)

/-- What a reader gets from a file. -/
def decode (file : Bytes) : Stream :=
  match dropHeader? file with
  | none => ⟨[], false⟩
  | some compressed =>
    let outcome := Inflate.run compressed
    let data := outcome.delivered (file.length - compressed.length) compressed
    ⟨data, outcome.ending = .complete && isSound data outcome.rest⟩

/-! ### Writing -/

/-- A way to put bytes into a gzip file. -/
class Encoder where
  encode : Bytes → Bytes

export Encoder (encode)

/-- Readers get the bytes that were put into a file back, and the end after them. -/
class LawfulEncoder [Encoder] : Prop where
  decode_encode : ∀ data, decode (encode data) = ⟨data, true⟩

export LawfulEncoder (decode_encode)

/-- A file in which bytes stand as they are, in plain blocks. -/
def stored (data : Bytes) : Bytes :=
  header ++ Inflate.stored data ++ Bytes.little 4 (Crc32.checksum data).toNat ++
    Bytes.little 4 data.length

instance : Encoder :=
  ⟨stored⟩

end AgentChain.Gzip
