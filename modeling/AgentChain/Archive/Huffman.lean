import AgentChain.Archive.Bits

/-!
# Canonical codes

A canonical code is given by the length of the code word of each symbol. Words of one length are
consecutive numbers, in the order of the symbols, and longer words come after shorter ones.
-/

namespace AgentChain.Huffman

structure Code where
  /-- How many words there are of the lengths one, two and so on, up to the longest. -/
  counts : List Nat
  /-- The symbols in the order of their words. -/
  symbols : Array Nat

def symbolsOf (lengths : List Nat) (length : Nat) : List Nat :=
  (lengths.zipIdx.filter fun e => e.1 = length).map (·.2)

namespace Code

/-- The code with words of the given lengths; symbols of length zero have none. -/
def ofLengths (lengths : List Nat) : Code :=
  let groups := (List.range (lengths.foldl Nat.max 1)).map fun n => symbolsOf lengths (n + 1)
  ⟨groups.map List.length, groups.flatten.toArray⟩

/-- The part of all words of `left` bits that words of the given counts take up. -/
def usage : (left : Nat) → List Nat → Nat
  | _, [] => 0
  | 0, _ => 0
  | left + 1, count :: rest => count <<< left + usage left rest

/-- Whether the words take up everything, so that any bits start with just one of them. -/
def isComplete (code : Code) : Bool :=
  usage code.counts.length code.counts = 1 <<< code.counts.length

/-- Whether a code can stand for the symbols of a block: it is complete, or it has no word at all,
or a single word of one bit. -/
def isUsable (code : Code) : Bool :=
  code.isComplete || code.counts = [0] || code.counts = [1]

end Code

inductive Decoded where
  | symbol (n : Nat) (rest : Bits)
  | invalid
  | truncated

/-- Read a word bit by bit: `word` is what is read so far, `first` the first word of the current
length, and `index` the place of its symbol. No bit is read beyond the longest word. -/
def decodeFrom (symbols : Array Nat) :
    (counts : List Nat) → (word first index : Nat) → Bits → Decoded
  | [], _, _, _, _ => .invalid
  | count :: rest, word, first, index, s =>
    match s.next? with
    | none => .truncated
    | some (bit, s) =>
      let word := 2 * word + bit
      if word < first + count then
        match symbols[index + (word - first)]? with
        | some n => .symbol n s
        | none => .invalid
      else decodeFrom symbols rest word (2 * (first + count)) (index + count) s

def Code.decode (code : Code) (s : Bits) : Decoded :=
  decodeFrom code.symbols code.counts 0 0 0 s

end AgentChain.Huffman
