import AgentChain.Archive.Huffman

/-!
# Decompression

Compressed data is a sequence of blocks. A block holds bytes as they are, or symbols of two codes:
literal bytes, and copies of earlier output given by a length and a distance. What lies before the
start of the output is zero.
-/

namespace AgentChain.Inflate

inductive Ending where
  | complete
  | truncated
  | corrupt
  deriving DecidableEq, Repr

structure Outcome where
  output : Array UInt8
  ending : Ending
  /-- The bytes after the compressed data, if it is complete. -/
  rest : Bytes

/-- The state after a part of a block: output and what is left, or an end. -/
inductive Step where
  | more (output : Array UInt8) (rest : Bits)
  | stop (output : Array UInt8) (ending : Ending)

/-! ### Codes of a block -/

structure Codes where
  literals : Huffman.Code
  distances : Huffman.Code

def fixedLiteralLengths : List Nat :=
  List.replicate 144 8 ++ List.replicate 112 9 ++ List.replicate 24 7 ++ List.replicate 8 8

def fixedCodes : Codes where
  literals := .ofLengths fixedLiteralLengths
  distances := .ofLengths (List.replicate 32 5)

/-- The order in which the lengths of the code for lengths are given. -/
def lengthOrder : List Nat :=
  [16, 17, 18, 0, 8, 7, 9, 6, 10, 5, 11, 4, 12, 3, 13, 2, 14, 1, 15]

/-- What reading comes to that may end early or break the rules. -/
inductive Reading (α : Type) where
  | done (a : α) (rest : Bits)
  | failed (ending : Ending)

def readNumber (width : Nat) (s : Bits) : Reading Nat :=
  match s.number? width with
  | some (n, s) => .done n s
  | none => .failed .truncated

def readTriples : (count : Nat) → Bits → Reading (List Nat)
  | 0, s => .done [] s
  | count + 1, s =>
    match readNumber 3 s with
    | .failed e => .failed e
    | .done n s =>
      match readTriples count s with
      | .failed e => .failed e
      | .done ns s => .done (n :: ns) s

/-- The length of the code for lengths of a symbol, given by the triples. -/
def lengthOf (triples : List Nat) (symbol : Nat) : Nat :=
  match (lengthOrder.zip triples).find? fun e => e.1 = symbol with
  | some (_, n) => n
  | none => 0

/-- Read word lengths until there are `wanted`; `found` has those read so far, newest first. A
symbol above fifteen repeats the last length or a zero, and must not go beyond what is wanted. -/
def readLengths (code : Huffman.Code) (wanted : Nat) : (fuel : Nat) → (found : List Nat) → Bits →
    Reading (List Nat)
  | 0, _, _ => .failed .corrupt
  | fuel + 1, found, s =>
    if found.length = wanted then .done found.reverse s
    else match code.decode s with
      | .truncated => .failed .truncated
      | .invalid => .failed .corrupt
      | .symbol n s =>
        let repeating (width least value : Nat) : Reading (List Nat) :=
          match readNumber width s with
          | .failed e => .failed e
          | .done extra s =>
            let found := List.replicate (least + extra) value ++ found
            if found.length ≤ wanted then readLengths code wanted fuel found s
            else .failed .corrupt
        if n < 16 then readLengths code wanted fuel (n :: found) s
        else if n = 16 then
          match found with
          | [] => .failed .corrupt
          | last :: _ => repeating 2 3 last
        else if n = 17 then repeating 3 3 0
        else repeating 7 11 0

def readCodes (s : Bits) : Reading Codes :=
  match readNumber 5 s with
  | .failed e => .failed e
  | .done literals s =>
    match readNumber 5 s with
    | .failed e => .failed e
    | .done distances s =>
      match readNumber 4 s with
      | .failed e => .failed e
      | .done triples s =>
        let literals := literals + 257
        let distances := distances + 1
        if 286 < literals || 30 < distances then .failed .corrupt
        else match readTriples (triples + 4) s with
          | .failed e => .failed e
          | .done triples s =>
            let code := Huffman.Code.ofLengths ((List.range 19).map (lengthOf triples))
            if !code.isComplete then .failed .corrupt
            else match readLengths code (literals + distances) (literals + distances + 1) [] s with
              | .failed e => .failed e
              | .done lengths s =>
                let codes : Codes :=
                  ⟨.ofLengths (lengths.take literals), .ofLengths (lengths.drop literals)⟩
                if codes.literals.isUsable && codes.distances.isUsable then .done codes s
                else .failed .corrupt

/-! ### Symbols -/

/-- The least copy length of a length symbol, counted from 257, and the width of what is added. -/
def lengthBase : List (Nat × Nat) :=
  [(3, 0), (4, 0), (5, 0), (6, 0), (7, 0), (8, 0), (9, 0), (10, 0), (11, 1), (13, 1), (15, 1),
    (17, 1), (19, 2), (23, 2), (27, 2), (31, 2), (35, 3), (43, 3), (51, 3), (59, 3), (67, 4),
    (83, 4), (99, 4), (115, 4), (131, 5), (163, 5), (195, 5), (227, 5), (258, 0)]

/-- The least distance of a distance symbol and the width of what is added. -/
def distanceBase : List (Nat × Nat) :=
  [(1, 0), (2, 0), (3, 0), (4, 0), (5, 1), (7, 1), (9, 2), (13, 2), (17, 3), (25, 3), (33, 4),
    (49, 4), (65, 5), (97, 5), (129, 6), (193, 6), (257, 7), (385, 7), (513, 8), (769, 8),
    (1025, 9), (1537, 9), (2049, 10), (3073, 10), (4097, 11), (6145, 11), (8193, 12), (12289, 12),
    (16385, 13), (24577, 13)]

def readBased (base : List (Nat × Nat)) (symbol : Nat) (s : Bits) : Reading Nat :=
  match base[symbol]? with
  | none => .failed .corrupt
  | some (least, width) =>
    match readNumber width s with
    | .failed e => .failed e
    | .done extra s => .done (least + extra) s

def copyBack (distance : Nat) : (count : Nat) → Array UInt8 → Array UInt8
  | 0, out => out
  | count + 1, out =>
    let b := if distance ≤ out.size then out.getD (out.size - distance) 0 else 0
    copyBack distance count (out.push b)

def readCopy (codes : Codes) (symbol : Nat) (out : Array UInt8) (s : Bits) : Step :=
  match readBased lengthBase (symbol - 257) s with
  | .failed e => .stop out e
  | .done length s =>
    match codes.distances.decode s with
    | .truncated => .stop out .truncated
    | .invalid => .stop out .corrupt
    | .symbol n s =>
      match readBased distanceBase n s with
      | .failed e => .stop out e
      | .done distance s => .more (copyBack distance length out) s

def readSymbols (codes : Codes) : (fuel : Nat) → Array UInt8 → Bits → Step
  | 0, out, _ => .stop out .corrupt
  | fuel + 1, out, s =>
    match codes.literals.decode s with
    | .truncated => .stop out .truncated
    | .invalid => .stop out .corrupt
    | .symbol n s =>
      if n < 256 then readSymbols codes fuel (out.push (UInt8.ofNat n)) s
      else if n = 256 then .more out s
      else match readCopy codes n out s with
        | .stop out e => .stop out e
        | .more out s => readSymbols codes fuel out s

/-! ### Blocks -/

/-- Read a block of plain bytes: their number, its complement, and the bytes. -/
def readStored (out : Array UInt8) (s : Bits) : Step :=
  let b := s.aligned
  match b.little? 0 2, b.little? 2 2 with
  | some length, some complement =>
    if length + complement = 0xffff then
      let plain := (b.drop 4).take length
      let out := plain.foldl Array.push out
      if plain.length = length then .more out (.ofBytes (b.drop (4 + length)))
      else .stop out .truncated
    else .stop out .corrupt
  | _, _ => .stop out .truncated

def readBlock (fuel kind : Nat) (out : Array UInt8) (s : Bits) : Step :=
  match kind with
  | 0 => readStored out s
  | 1 => readSymbols fixedCodes fuel out s
  | 2 =>
    match readCodes s with
    | .failed e => .stop out e
    | .done codes s => readSymbols codes fuel out s
  | _ => .stop out .corrupt

def readBlocks : (fuel : Nat) → Array UInt8 → Bits → Outcome
  | 0, out, _ => ⟨out, .corrupt, []⟩
  | fuel + 1, out, s =>
    match s.number? 1 with
    | none => ⟨out, .truncated, []⟩
    | some (last, s) =>
      match s.number? 2 with
      | none => ⟨out, .truncated, []⟩
      | some (kind, s) =>
        match readBlock fuel kind out s with
        | .stop out e => ⟨out, e, []⟩
        | .more out s =>
          if last = 1 then ⟨out, .complete, s.aligned⟩ else readBlocks fuel out s

/-- Decompress. Every block and every symbol takes up at least one bit. -/
def run (b : Bytes) : Outcome :=
  readBlocks (8 * b.length + 1) #[] (.ofBytes b)

/-! ### What a reader gets -/

/-- The size of the window in which output is gathered before it is handed on. -/
def windowSize : Nat := 32768

def chunkSize : Nat := 32768

def portionSize : Nat := 8192

/-- The size of the output of the longest sequence of whole chunks, at most `count`, in which no
fault shows. The first chunk has `lead` bytes before the compressed data. -/
def soundSize (lead : Nat) (b : Bytes) : (count : Nat) → Nat
  | 0 => 0
  | count + 1 =>
    let o := run (b.take ((count + 1) * chunkSize - lead))
    if o.ending = .corrupt then soundSize lead b count else o.output.size

/-- The output that a reader gets. When the data turns out to be corrupt, what stands in the window
is lost: all output since a full window was last needed for more or a chunk was used up. A window
that fills up with less than a portion after the end of a chunk is handed on with what follows it.
-/
def Outcome.delivered (o : Outcome) (lead : Nat) (b : Bytes) : Bytes :=
  match o.ending with
  | .corrupt =>
    let sound := soundSize lead b ((lead + b.length) / chunkSize)
    let full := (o.output.size - 1) / windowSize * windowSize
    let kept := if full < sound + portionSize then sound else full
    o.output.toList.take kept
  | _ => o.output.toList

/-! ### Compression -/

def storedLimit : Nat := 65535

def storedBlock (last : Bool) (b : Bytes) : Bytes :=
  (if last then 1 else 0) :: (Bytes.little 2 b.length ++ Bytes.little 2 (0xffff - b.length) ++ b)

/-- The compressed form of bytes that has them all in plain blocks. -/
def storedFrom : (fuel : Nat) → Bytes → Bytes
  | 0, b => storedBlock true b
  | fuel + 1, b =>
    if b.length ≤ storedLimit then storedBlock true b
    else storedBlock false (b.take storedLimit) ++ storedFrom fuel (b.drop storedLimit)

def stored (b : Bytes) : Bytes :=
  storedFrom (b.length / storedLimit) b

end AgentChain.Inflate
