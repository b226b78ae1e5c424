import AgentChain.Bytes.Basic

/-!
# CRC-32

The checksum that gzip members and zip entries carry: the reflected polynomial `0xedb88320`, started
and ended with all bits inverted.
-/

namespace AgentChain.Crc32

def shift : (count : Nat) → UInt32 → UInt32
  | 0, r => r
  | count + 1, r => shift count (if r &&& 1 = 1 then (r >>> 1) ^^^ 0xedb88320 else r >>> 1)

/-- What one byte does to the running remainder. -/
def step (r : UInt32) (b : UInt8) : UInt32 :=
  shift 8 (r ^^^ b.toUInt32)

def checksum (b : Bytes) : UInt32 :=
  ~~~(b.foldl step 0xffffffff)

end AgentChain.Crc32
