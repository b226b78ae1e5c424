/-!
# Byte sequences

File contents and archives are lists of bytes. This module has their text view (UTF-8, strict and
with replacement characters), their hexadecimal form and the little-endian numbers that the archive
formats are made of.
-/

namespace AgentChain

abbrev Bytes := List UInt8

namespace Bytes

def ofText (s : String) : Bytes :=
  s.toUTF8.data.toList

def text? (b : Bytes) : Option String :=
  String.fromUTF8? ⟨b.toArray⟩

theorem text?_ofText (s : String) : text? (ofText s) = some s :=
  dif_pos s.isValidUTF8

def split (separator : UInt8) : Bytes → List Bytes
  | [] => [[]]
  | b :: rest =>
    match split separator rest with
    | [] => [[b]]
    | part :: parts => if b = separator then [] :: part :: parts else (b :: part) :: parts

/-! ### Reading with replacement characters -/

def isTail (b : UInt8) : Bool :=
  0x80 ≤ b && b ≤ 0xbf

/-- Whether `second` may follow the first byte `lead` of a character of several bytes. -/
def mayFollow (lead second : UInt8) : Bool :=
  if lead == 0xe0 then 0xa0 ≤ second && second ≤ 0xbf
  else if lead == 0xed then 0x80 ≤ second && second ≤ 0x9f
  else if lead == 0xf0 then 0x90 ≤ second && second ≤ 0xbf
  else if lead == 0xf4 then 0x80 ≤ second && second ≤ 0x8f
  else isTail second

/-- How many bytes follow the first byte of a character, if it can be the first. -/
def tailLength? (lead : UInt8) : Option Nat :=
  if lead < 0x80 then some 0
  else if 0xc2 ≤ lead && lead ≤ 0xdf then some 1
  else if 0xe0 ≤ lead && lead ≤ 0xef then some 2
  else if 0xf0 ≤ lead && lead ≤ 0xf4 then some 3
  else none

def leadBits (lead : UInt8) (tails : Nat) : Nat :=
  match tails with
  | 0 => lead.toNat
  | 1 => lead.toNat % 32
  | 2 => lead.toNat % 16
  | _ => lead.toNat % 8

/-- The bytes right after a first byte that continue its character, at most `tails` of them. -/
def tailOf (lead : UInt8) (tails : Nat) (rest : Bytes) : Bytes :=
  match rest with
  | [] => []
  | second :: more =>
    if 0 < tails && mayFollow lead second then second :: (more.take (tails - 1)).takeWhile isTail
    else []

/-- The characters of a byte sequence. A first byte whose character is broken off, together with the
bytes that do continue it, gives one replacement character. -/
def lossyChars : Bytes → List Char
  | [] => []
  | lead :: rest =>
    match tailLength? lead with
    | none => '�' :: lossyChars rest
    | some tails =>
      let tail := tailOf lead tails rest
      let code := tail.foldl (fun acc b => acc * 64 + b.toNat % 64) (leadBits lead tails)
      (if tail.length = tails then Char.ofNat code else '�') :: lossyChars (rest.drop tail.length)
termination_by b => b.length
decreasing_by
  · simp only [List.length_cons]; omega
  · simp only [List.length_cons, List.length_drop]; omega

/-- The text of a byte sequence, with replacement characters for what is not UTF-8. -/
def lossyText (b : Bytes) : String :=
  (text? b).getD (String.ofList (lossyChars b))

/-! ### Hexadecimal form -/

def hexDigit (n : Nat) : Char :=
  if n < 10 then Char.ofNat (48 + n) else Char.ofNat (87 + n)

def hex (b : Bytes) : String :=
  String.ofList (b.flatMap fun x => [hexDigit (x.toNat / 16), hexDigit (x.toNat % 16)])

/-! ### Little-endian numbers -/

/-- The lowest `width` bytes of a number, least significant first. -/
def little : (width : Nat) → Nat → Bytes
  | 0, _ => []
  | width + 1, n => UInt8.ofNat (n % 256) :: little width (n / 256)

def ofLittle : Bytes → Nat
  | [] => 0
  | x :: rest => x.toNat + 256 * ofLittle rest

def ofBig (b : Bytes) : Nat :=
  b.foldl (fun acc x => acc * 256 + x.toNat) 0

/-- The `count` bytes from position `start`, if there are that many. -/
def slice? (b : Bytes) (start count : Nat) : Option Bytes :=
  let part := (b.drop start).take count
  if part.length = count then some part else none

/-- The little-endian number of `width` bytes at position `start`. -/
def little? (b : Bytes) (start width : Nat) : Option Nat :=
  (b.slice? start width).map ofLittle

end Bytes

end AgentChain
