import AgentChain.Archive.Gzip
import AgentChain.Archive.Tar.Sparse
import AgentChain.FileTree.Route

/-!
# Reading tar archives

The members of an archive follow each other, each padded to a whole number of blocks. The archive
ends at a block of zeros or where the data ends between two members. A member may be preceded by
others that give its path, the target of its link or attributes, when those do not fit its header.
-/

namespace AgentChain.Tar

/-! ### Attributes -/

/-- A record of attributes: its name and its value. It is written as its length, a blank, the name,
an equals sign and the value. -/
def attribute? (line : Bytes) : Option (Bytes × Bytes) :=
  let count : Bytes := line.takeWhile (· ≠ 0x20)
  match line.dropWhile (· ≠ 0x20) with
  | [] => none
  | _ :: pair =>
    let digits := (count.text?.map String.toList).getD []
    let number := match digits with
      | '+' :: ds => ds
      | ds => ds
    if number.isEmpty || !number.all fun c => '0' ≤ c && c ≤ '9' then none
    else if number.foldl (fun acc c => acc * 10 + (c.toNat - 48)) 0 ≠ line.length + 1 then none
    else match pair.dropWhile (· ≠ 0x3d) with
      | [] => none
      | _ :: value => some (pair.takeWhile (· ≠ 0x3d), value)

def attributeLines (b : Bytes) : List Bytes :=
  (b.split 0x0a).takeWhile (!·.isEmpty)

/-- The value of the first attribute with a name, where malformed records are passed over. -/
def attributeValue? (name : String) (b : Bytes) : Option Bytes :=
  ((attributeLines b).filterMap attribute?).find? (fun a => a.1 = Bytes.ofText name) |>.map (·.2)

/-- The size that attributes give; a malformed record before it hides it. -/
def attributeSize? (b : Bytes) : Option Nat :=
  match (attributeLines b).find? fun line =>
      match attribute? line with
      | none => true
      | some a => a.1 = Bytes.ofText "size" with
  | none => none
  | some line =>
    (attribute? line).bind fun a => a.2.text?.bind fun s =>
      let cs := match s.toList with
        | '+' :: cs => cs
        | cs => cs
      let n := cs.foldl (fun acc c => acc * 10 + (c.toNat - 48)) 0
      if cs.isEmpty || !cs.all (fun c => '0' ≤ c && c ≤ '9') || UInt64.size ≤ n then none
      else some n

/-! ### Members -/

/-- What was said about a member before its header. -/
structure Remarks where
  longName : Option Bytes := none
  longLink : Option Bytes := none
  attributes : Option Bytes := none

def Remarks.isEmpty (r : Remarks) : Bool :=
  r.longName.isNone && r.longLink.isNone && r.attributes.isNone

/-- A piece of the contents of a member: zeros, or what the archive has of a number of bytes. -/
inductive Piece where
  | hole (size : Nat)
  | stored (size : Nat) (found : Bytes)

def piecesOf : List Extent → Bytes → List Piece
  | [], _ => []
  | .hole size :: rest, b => .hole size :: piecesOf rest b
  | .stored size :: rest, b => .stored size (b.take size) :: piecesOf rest (b.drop size)

def holeLimit : Nat := 1 <<< 26

/-- The contents that pieces make up, as far as the archive has them and up to a hole that is too
long. -/
def assemble : List Piece → Bytes
  | [] => []
  | .hole size :: rest =>
    if holeLimit < size then [] else List.replicate size 0 ++ assemble rest
  | .stored size found :: rest => if found.length < size then found else found ++ assemble rest

structure Member where
  header : Header
  size : Nat
  pieces : List Piece
  remarks : Remarks

namespace Member

def dropZero (b : Bytes) : Bytes :=
  if b.getLast? = some 0 then b.dropLast else b

def pathBytes (m : Member) : Bytes :=
  match m.remarks.longName with
  | some name => dropZero name
  | none =>
    match m.remarks.attributes.bind (attributeValue? "path") with
    | some path => path
    | none => m.header.pathBytes

def path (m : Member) : String :=
  m.pathBytes.lossyText

/-- The names in the path of a member, unless one of its segments leads up. -/
def names? (m : Member) : Option (List Name) :=
  let segments := m.pathBytes.split Name.slash
  if segments.contains Name.up then none else some (segments.filter (!·.isIdle))

def link? (m : Member) : Option Bytes :=
  match m.remarks.longLink with
  | some target => some (dropZero target)
  | none =>
    match m.remarks.attributes.bind (attributeValue? "linkpath") with
    | some target => some target
    | none => m.header.linkBytes?

def contents (m : Member) : Bytes :=
  assemble m.pieces

/-- Whether a member is a directory by its kind or, outside the standard form, by a slash at the end
of its path. -/
def isDirectory (m : Member) : Bool :=
  m.header.kind = .directory ||
    (!m.header.isStandard && m.pathBytes.getLast? = some Name.slash)

end Member

/-- A member right after its header was read: what follows the header is not yet cut. -/
structure Opening where
  header : Header
  size : Nat
  following : Bytes

def paddedSize (size : Nat) : Nat :=
  (size + (blockSize - 1)) / blockSize * blockSize

/-- The next header after `skip` bytes, or the end. A size in attributes goes before that of the
header, unless the member tells something about others. -/
def nextHeader (s : Gzip.Stream) (attributes : Option Bytes) (skip : Nat) :
    Option (Option Opening) :=
  if s.data.length < skip then none
  else
    let data := s.data.drop skip
    let header : Header := data.take blockSize
    if data.isEmpty then (if s.sound then some none else none)
    else if header.length < blockSize then none
    else if header.all (· = 0) then some none
    else if !header.isSound then none
    else match header.size? with
      | none => none
      | some stated =>
        let size :=
          if header.kind.isRemark then stated else (attributes.bind attributeSize?).getD stated
        if UInt64.size ≤ size + (blockSize - 1) then none
        else some (some { header, size, following := data.drop blockSize })

/-- The members of an archive, and whether reading them ends in a fault. -/
structure Members where
  found : List Member
  faulty : Bool

/-- The members after `skip` bytes, given what was said about the next one. -/
def readFrom (sound : Bool) : (fuel : Nat) → Remarks → (skip : Nat) → Bytes → Members
  | 0, _, _, _ => ⟨[], true⟩
  | fuel + 1, remarks, skip, data =>
    match nextHeader ⟨data, sound⟩ remarks.attributes skip with
    | none => ⟨[], true⟩
    | some none => ⟨[], !remarks.isEmpty⟩
    | some (some opening) =>
      let contents := opening.following.take opening.size
      let skip := paddedSize opening.size
      let remarkable := opening.header.isStandard || opening.header.isExtended
      let remark (present : Bool) (remarks : Remarks) : Members :=
        if present || (!sound && contents.length < opening.size) then ⟨[], true⟩
        else readFrom sound fuel remarks skip opening.following
      if remarkable && opening.header.kind = .longName then
        remark remarks.longName.isSome { remarks with longName := some contents }
      else if remarkable && opening.header.kind = .longLink then
        remark remarks.longLink.isSome { remarks with longLink := some contents }
      else if remarkable && opening.header.kind = .attributes then
        remark remarks.attributes.isSome { remarks with attributes := some contents }
      else if opening.header.kind = .sparse then
        match Sparse.read? opening.header opening.size opening.following with
        | none => ⟨[], true⟩
        | some layout =>
          let listed := layout.blocks * blockSize
          let rest := readFrom sound fuel {} (skip + listed) opening.following
          let pieces := piecesOf layout.extents (opening.following.drop listed)
          ⟨⟨opening.header, layout.size, pieces, remarks⟩ :: rest.found, rest.faulty⟩
      else
        let rest := readFrom sound fuel {} skip opening.following
        let pieces := [Piece.stored opening.size contents]
        ⟨⟨opening.header, opening.size, pieces, remarks⟩ :: rest.found, rest.faulty⟩

def read (s : Gzip.Stream) : Members :=
  readFrom s.sound (s.data.length / blockSize + 2) {} 0 s.data

end AgentChain.Tar
