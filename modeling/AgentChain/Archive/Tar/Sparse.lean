import AgentChain.Archive.Tar.Header

/-!
# Files with holes

A member may leave out long runs of zeros of its file. Its header, and blocks that may follow the
header, list the parts of the file that the archive holds, in ascending order, and the header also
has the size of the file. All parts but the last fill whole blocks of the archive.
-/

namespace AgentChain.Tar

/-- A run of a file: zeros, or bytes that the archive holds. -/
inductive Extent where
  | hole (size : Nat)
  | stored (size : Nat)
  deriving DecidableEq, Repr

/-- How a file with holes is laid out, as far as its parts are read. -/
structure Sparse where
  extents : List Extent
  /-- The size of the file up to the end of the last part. -/
  size : Nat
  /-- How much the archive holds beyond the parts. -/
  left : Nat
  /-- How many blocks after the header were read. -/
  blocks : Nat

namespace Sparse

def entrySize : Nat := 24

/-- Take in the entry of a part: where it starts and its size. An entry that starts with a zero byte
in one of its halves is empty. The archive holds `total` bytes of the file. -/
def add? (total : Nat) (s : Sparse) (entry : Bytes) : Option Sparse :=
  let start := entry.take 12
  let size := (entry.drop 12).take 12
  if start.head? = some 0 || size.head? = some 0 then some s
  else match Header.octal? start, Header.octal? size with
    | some start, some size =>
      if (size ≠ 0 && (total - s.left) % blockSize ≠ 0) || start < s.size ||
          UInt64.size ≤ start + size || s.left < size then none
      else
        let hole := if s.size < start then [.hole (start - s.size)] else []
        some { s with
          extents := s.extents ++ hole ++ [.stored size]
          size := start + size
          left := s.left - size }
    | _, _ => none

def addAll? (total : Nat) : (count : Nat) → Sparse → Bytes → Option Sparse
  | 0, s, _ => some s
  | count + 1, s, b =>
    (s.add? total (b.take entrySize)).bind fun s => addAll? total count s (b.drop entrySize)

/-- Take in the entries in the blocks after a header. Each says whether another one follows. -/
def addBlocks? (total : Nat) : (fuel : Nat) → Sparse → Bytes → Option Sparse
  | 0, _, _ => none
  | fuel + 1, s, following =>
    let block := following.take blockSize
    if block.length < blockSize then none
    else (addAll? total 21 { s with blocks := s.blocks + 1 } block).bind fun s =>
      if Header.field block 504 1 = [1] then
        addBlocks? total fuel s (following.drop blockSize)
      else some s

/-- The layout that a header and the blocks after it describe. Only headers of the extended form
have one; the parts must reach the size of the file and use up what the archive holds. -/
def read? (h : Header) (total : Nat) (following : Bytes) : Option Sparse :=
  if !h.isExtended then none
  else
    let own := addAll? total 4 { extents := [], size := 0, left := total, blocks := 0 }
      (h.field 386 96)
    let all := own.bind fun s =>
      if h.field 482 1 = [1] then addBlocks? total (following.length / blockSize + 1) s following
      else some s
    all.bind fun s =>
      if Header.octal? (h.field 483 12) = some s.size && s.left = 0 then some s else none

end Sparse

end AgentChain.Tar
