import AgentChain.Bytes.Basic
import AgentChain.Text.Blank

/-!
# Tar headers

A member of a tar archive starts with a header of 512 bytes. Its fields have fixed places; texts in
them end at the first zero byte, and numbers are octal texts, or binary if the first bit is set. The
checksum of a header is the sum of its bytes, where those of the checksum itself count as blanks.
-/

namespace AgentChain.Tar

/-- The size of a header, and of the blocks that members are padded to. -/
def blockSize : Nat := 512

abbrev Header := Bytes

namespace Header

def field (h : Header) (start length : Nat) : Bytes :=
  (h.drop start).take length

def textBytes (b : Bytes) : Bytes :=
  b.takeWhile (· ≠ 0)

/-- The value of octal digits, if it fits sixty-four bits; there must be at least one. -/
def octalDigits? (cs : List Char) : Option Nat :=
  if cs.isEmpty || !cs.all fun c => '0' ≤ c && c ≤ '7' then none
  else
    let n := cs.foldl (fun acc c => acc * 8 + (c.toNat - 48)) 0
    if n < UInt64.size then some n else none

def octal? (b : Bytes) : Option Nat :=
  (textBytes b).text?.bind fun s =>
    match Text.trimChars s.toList with
    | '+' :: digits => octalDigits? digits
    | digits => octalDigits? digits

/-- The number in a field that may be binary; of a binary field the last eight bytes count. -/
def number? (b : Bytes) : Option Nat :=
  match b with
  | first :: _ => if 0x80 ≤ first then some (Bytes.ofBig (b.drop (b.length - 8))) else octal? b
  | [] => none

def byteSum (b : Bytes) : Nat :=
  b.foldl (fun acc x => acc + x.toNat) 0

def checksum (h : Header) : Nat :=
  byteSum (h.take 148) + 8 * 32 + byteSum (h.drop 156)

def isSound (h : Header) : Bool :=
  octal? (h.field 148 8) = some h.checksum

def size? (h : Header) : Option Nat :=
  number? (h.field 124 12)

/-- Whether a directory may be entered, by the bit of its mode for that. -/
def mayEnter? (h : Header) : Option Bool :=
  (octal? (h.field 100 8)).map fun mode => mode / 0o100 % 2 = 1

def isStandard (h : Header) : Bool :=
  h.field 257 8 = Bytes.ofText "ustar\x0000"

def isExtended (h : Header) : Bool :=
  h.field 257 8 = Bytes.ofText "ustar  \x00"

inductive Kind where
  | file
  | directory
  | symlink
  | hardLink
  | longName
  | longLink
  | attributes
  | globalAttributes
  | sparse
  deriving DecidableEq, Repr

/-- Whether a member tells something about others, and is no file itself. -/
def Kind.isRemark : Kind → Bool
  | longName => true
  | longLink => true
  | attributes => true
  | globalAttributes => true
  | _ => false

def kind (h : Header) : Kind :=
  match (h.drop 156).head? with
  | some 0x31 => .hardLink
  | some 0x32 => .symlink
  | some 0x35 => .directory
  | some 0x4c => .longName
  | some 0x4b => .longLink
  | some 0x78 => .attributes
  | some 0x67 => .globalAttributes
  | some 0x53 => .sparse
  | _ => .file

/-- The path in a header; the standard form has a field for its first part. -/
def pathBytes (h : Header) : Bytes :=
  let name := textBytes (h.field 0 100)
  let lead := textBytes (h.field 345 155)
  if h.isStandard && !lead.isEmpty then lead ++ 0x2f :: name else name

def linkBytes? (h : Header) : Option Bytes :=
  let target := textBytes (h.field 157 100)
  if target.isEmpty then none else some target

end Header

end AgentChain.Tar
