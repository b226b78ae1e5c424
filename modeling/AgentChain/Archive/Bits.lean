import AgentChain.Bytes.Basic

/-!
# Bit sequences

Compressed data is read bit by bit, the lowest bit of a byte first. Numbers of several bits also
have their lowest bit first.
-/

namespace AgentChain

/-- What is left of a bit sequence: bytes, of the first of which some low bits are used up. -/
structure Bits where
  bytes : Bytes
  used : Nat

namespace Bits

def ofBytes (b : Bytes) : Bits where
  bytes := b
  used := 0

def next? (s : Bits) : Option (Nat × Bits) :=
  match s.bytes with
  | [] => none
  | b :: rest =>
    let bit := b.toNat >>> s.used % 2
    some (bit, if s.used < 7 then ⟨b :: rest, s.used + 1⟩ else ⟨rest, 0⟩)

def number? : (width : Nat) → Bits → Option (Nat × Bits)
  | 0, s => some (0, s)
  | width + 1, s =>
    s.next?.bind fun (low, s) => (number? width s).map fun (high, s) => (low + 2 * high, s)

def aligned (s : Bits) : Bytes :=
  if s.used = 0 then s.bytes else s.bytes.drop 1

end Bits

end AgentChain
