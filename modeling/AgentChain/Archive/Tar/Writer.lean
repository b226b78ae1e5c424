import AgentChain.Archive.Tar.Header
import AgentChain.FileTree.Path

/-!
# Writing tar archives

An archive of regular files. All headers are alike but for path, size and checksum, so that the same
files give the same archive. A path that does not fit its field goes into a member of its own before
the file, and the field holds its start.
-/

namespace AgentChain.Tar

/-- A number in octal digits with leading zeros, and a zero byte. -/
def octalField (width n : Nat) : Bytes :=
  let digits := (Nat.toDigits 8 n).map fun c => UInt8.ofNat c.toNat
  List.replicate (width - 1 - digits.length) 0x30 ++ digits ++ [0]

def octalLimit : Nat := 1 <<< 33

/-- The field of a size: octal digits, or eight binary bytes, marked by the first bit. -/
def sizeField (n : Nat) : Bytes :=
  if n < octalLimit then octalField 12 n
  else 0x80 :: 0 :: 0 :: 0 :: (Bytes.little 8 n).reverse

def padTo (width : Nat) (b : Bytes) : Bytes :=
  b ++ List.replicate (width - b.length) 0

def headerStart (path : Bytes) (size : Nat) : Bytes :=
  padTo 100 path ++ octalField 8 0o644 ++ octalField 8 0 ++ octalField 8 0 ++ sizeField size ++
    octalField 12 0

def headerEnd (kind : UInt8) : Bytes :=
  padTo 356 (kind :: (List.replicate 100 0 ++ Bytes.ofText "ustar  \x00"))

def writeHeader (path : Bytes) (size : Nat) (kind : UInt8) : Header :=
  let before := headerStart path size
  let after := headerEnd kind
  let sum := Header.byteSum before + 8 * 32 + Header.byteSum after
  before ++ octalField 8 sum ++ after

def padded (b : Bytes) : Bytes :=
  padTo ((b.length + (blockSize - 1)) / blockSize * blockSize) b

def pathLimit : Nat := 100

def fitting (limit : Nat) : List Char → List Char
  | [] => []
  | c :: rest => if c.utf8Size ≤ limit then c :: fitting (limit - c.utf8Size) rest else []

/-- The text of a part of a path that was cut off somewhere, if it has one. -/
def partText? : Path.Part → Option String
  | .name s => some s
  | .up => some ".."
  | _ => none

/-- The text of the parts of a path that was cut off somewhere; a slash at its end stays. -/
def cutPath (path : String) : String :=
  Text.join "/" ((Path.parts path).filterMap partText?) ++ if path.toList.getLast? = some '/' then "/" else ""

def sizeLimit : Nat := 1 <<< 63

def writeMember? (path : String) (contents : Bytes) : Option Bytes :=
  if path.isEmpty || sizeLimit ≤ contents.length then none
  else
    let bytes := Bytes.ofText path
    if bytes.length ≤ pathLimit then
      some (writeHeader bytes contents.length 0x30 ++ padded contents)
    else
      let start := cutPath (String.ofList (fitting pathLimit path.toList))
      some (writeHeader (Bytes.ofText "././@LongLink") (bytes.length + 1) 0x4c ++
        padded (bytes ++ [0]) ++ writeHeader (Bytes.ofText start) contents.length 0x30 ++
        padded contents)

def ending : Bytes :=
  List.replicate (2 * blockSize) 0

end AgentChain.Tar
