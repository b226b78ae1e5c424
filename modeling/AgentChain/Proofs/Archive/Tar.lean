import AgentChain.Archive.Tar.Reader
import AgentChain.Archive.Tar.Writer
import AgentChain.Proofs.Archive.Compression
import AgentChain.Proofs.Text.Segments
import Mathlib.Tactic.IntervalCases

/-!
# Written archives are read back

The header of a member that was written says what was written into it: the checksum is right, and
the size and the path are read back. A path that does not fit its field is read from the member
before the file. So an archive of files is read to members that hold these files, in their order.
-/

namespace AgentChain

open Bytes (ofText)
open List (length_append)

theorem Text.trimChars_eq_self (h : ∀ c ∈ cs, isBlank c = false) : trimChars cs = cs := by
  have hkept : ∀ ds : List Char, (∀ c ∈ ds, isBlank c = false) → ds.dropWhile isBlank = ds := by
    intro ds hds
    cases ds with
    | nil => rfl
    | cons c ds => exact List.dropWhile_cons_of_neg (by simp [hds c List.mem_cons_self])
  rw [trimChars, trimEndChars, hkept cs h, hkept _ fun c hc => h c (List.mem_reverse.1 hc),
    List.reverse_reverse]

namespace Tar

/-! ### Octal numbers -/

theorem mem_toDigits_eight (h : c ∈ Nat.toDigits 8 n) : '0' ≤ c ∧ c ≤ '7' := by
  have hdigit : ∀ k, k < 8 → '0' ≤ Nat.digitChar k ∧ Nat.digitChar k ≤ '7' := by decide
  induction n using Nat.strongRecOn with
  | _ n ih =>
    rw [Nat.toDigits_eq_if (by decide)] at h
    split at h
    · next hn =>
      rw [List.mem_singleton.1 h]
      exact hdigit n hn
    · rcases List.mem_append.1 h with h | h
      · exact ih _ (by omega) h
      · rw [List.mem_singleton.1 h]
        exact hdigit _ (Nat.mod_lt _ (by decide))

def fieldDigits (width n : Nat) : List Char :=
  List.replicate (width - 1 - (Nat.toDigits 8 n).length) '0' ++ Nat.toDigits 8 n

variable {width n : Nat} {path : Bytes} {files : List (Bytes × Bytes)} {size : Nat}

theorem mem_fieldDigits (h : c ∈ fieldDigits width n) : '0' ≤ c ∧ c ≤ '7' := by
  rcases List.mem_append.1 h with h | h
  · rw [List.eq_of_mem_replicate h]
    decide
  · exact mem_toDigits_eight h

theorem ofDigitChars_fieldDigits (width n : Nat) :
    Nat.ofDigitChars 8 (fieldDigits width n) 0 = n := by
  rw [fieldDigits, Nat.ofDigitChars_append, Nat.ofDigitChars_replicate_zero, Nat.mul_zero,
    Nat.ofDigitChars_toDigits (by decide) (by decide)]

theorem octalField_eq (width n : Nat) :
    octalField width n = ofText (String.ofList (fieldDigits width n)) ++ [0] := by
  have hone : ∀ c ∈ fieldDigits width n, c.val.toNat ≤ 127 := fun c hc =>
    Nat.le_trans (UInt32.le_iff_toNat_le.1 (mem_fieldDigits hc).2) (by decide)
  rw [Bytes.ofText_ofList_of_le hone, fieldDigits, List.map_append, List.map_replicate, octalField,
    List.length_map]
  rfl

theorem length_octalField (hwidth : 0 < width)
    (h : (Nat.toDigits 8 n).length ≤ width - 1) : (octalField width n).length = width := by
  simp only [octalField, length_append, List.length_replicate, List.length_map,
    List.length_singleton]
  omega

theorem zero_not_mem_fieldDigits (width n : Nat) :
    0 ∉ ofText (String.ofList (fieldDigits width n)) := by
  intro h
  have hmem := (Bytes.mem_ofText_iff (k := '\x00') (by decide) _).1 h
  rw [String.toList_ofList] at hmem
  exact absurd (mem_fieldDigits hmem).1 (by decide)

theorem textBytes_append_zeros (h : 0 ∉ b) (count : Nat) :
    Header.textBytes (b ++ List.replicate count 0) = b := by
  have hpos : ∀ x ∈ b, decide (x ≠ 0) := fun x hx =>
    decide_eq_true fun h0 => h (h0 ▸ hx)
  rw [Header.textBytes, List.takeWhile_append_of_pos hpos]
  cases count with
  | zero => simp
  | succ count => simp [List.replicate_succ]

theorem octalDigits?_fieldDigits (hn : n < UInt64.size) :
    Header.octalDigits? (fieldDigits width n) = some n := by
  have hall : (fieldDigits width n).all (fun c => '0' ≤ c && c ≤ '7') :=
    List.all_eq_true.2 fun c hc => by simpa using mem_fieldDigits hc
  have hne : (fieldDigits width n).isEmpty = false := by
    simp [fieldDigits, Nat.toDigits_ne_nil]
  have hvalue : (fieldDigits width n).foldl (fun acc c => acc * 8 + (c.toNat - 48)) 0 = n := by
    refine Eq.trans ?_ (ofDigitChars_fieldDigits width n)
    simp only [Nat.ofDigitChars, Nat.mul_comm 8]
    rfl
  rw [Header.octalDigits?, hall, hne]
  simp only [hvalue]
  exact if_pos hn

theorem octal?_octalField (hn : n < UInt64.size) : Header.octal? (octalField width n) = some n := by
  have hblank : ∀ c ∈ fieldDigits width n, Text.isBlank c = false := by
    intro c hc
    obtain ⟨hlow, hhigh⟩ := mem_fieldDigits hc
    have hlow : 48 ≤ c.toNat := hlow
    have hhigh : c.toNat ≤ 55 := hhigh
    simp only [Text.isBlank, Bool.or_eq_false_iff, Bool.and_eq_false_iff, decide_eq_false_iff_not,
      beq_eq_false_iff_ne]
    omega
  have htext : Header.textBytes (ofText (String.ofList (fieldDigits width n)) ++ [0]) = _ :=
    textBytes_append_zeros (zero_not_mem_fieldDigits width n) 1
  rw [octalField_eq, Header.octal?, htext, Bytes.text?_ofText, Option.bind_some,
    String.toList_ofList, Text.trimChars_eq_self hblank]
  split
  · next digits heq =>
    have hplus := mem_fieldDigits (c := '+') (by rw [heq]; exact List.mem_cons_self)
    exact absurd hplus.1 (by decide)
  · exact octalDigits?_fieldDigits hn

/-! ### Sizes -/

theorem lt_of_mem_octalField (h : x ∈ octalField width n) : x < 0x80 := by
  rw [octalField] at h
  rcases List.mem_append.1 h with h | h
  · rcases List.mem_append.1 h with h | h
    · rw [List.eq_of_mem_replicate h]
      decide
    · obtain ⟨c, hc, rfl⟩ := List.mem_map.1 h
      have hhigh : c.toNat ≤ 55 := (mem_toDigits_eight hc).2
      rw [UInt8.lt_iff_toNat_lt, UInt8.toNat_ofNat']
      exact Nat.lt_of_le_of_lt (Nat.mod_le _ _) (Nat.lt_of_le_of_lt hhigh (by decide))
  · rw [List.mem_singleton.1 h]
    decide

theorem number?_octalField (hn : n < UInt64.size) :
    Header.number? (octalField width n) = some n := by
  cases hfield : octalField width n with
  | nil => simp [octalField] at hfield
  | cons x rest =>
    have hx : x < 0x80 := lt_of_mem_octalField (hfield ▸ List.mem_cons_self)
    rw [Header.number?, if_neg (UInt8.not_le.2 hx), ← hfield, octal?_octalField hn]

theorem ofBig_reverse (b : Bytes) : Bytes.ofBig b.reverse = Bytes.ofLittle b := by
  rw [Bytes.ofBig, List.foldl_reverse]
  induction b with
  | nil => rfl
  | cons x b ih =>
    rw [List.foldr_cons, ih, Bytes.ofLittle]
    omega

theorem ofLittle_little_eight (hn : n < UInt64.size) : Bytes.ofLittle (Bytes.little 8 n) = n := by
  simp only [Bytes.little, Bytes.ofLittle, UInt8.toNat_ofNat', UInt64.size] at hn ⊢
  omega

theorem length_sizeField (n : Nat) : (sizeField n).length = 12 := by
  rw [sizeField]
  split
  · next hn =>
    refine length_octalField (by decide) ((Nat.length_toDigits_le_iff (by decide) (by decide)).2 ?_)
    exact hn
  · simp

theorem number?_sizeField (hn : n < UInt64.size) : Header.number? (sizeField n) = some n := by
  rw [sizeField]
  split
  · exact number?_octalField hn
  · rw [Header.number?, if_pos (by decide)]
    simp [ofBig_reverse, ofLittle_little_eight hn]

/-! ### Headers -/

theorem length_padTo (h : b.length ≤ width) : (padTo width b).length = width := by
  rw [padTo, length_append, List.length_replicate, Nat.add_sub_cancel' h]

theorem length_headerEnd (kind : UInt8) : (headerEnd kind).length = 356 :=
  length_padTo (by rw [List.length_cons, length_append, List.length_replicate]; decide)

theorem byteSum_le (b : Bytes) : Header.byteSum b ≤ 255 * b.length := by
  have hfold : ∀ acc, b.foldl (fun acc x => acc + x.toNat) acc ≤ acc + 255 * b.length := by
    induction b with
    | nil => simp
    | cons x b ih =>
      intro acc
      rw [List.foldl_cons]
      have := ih (acc + x.toNat)
      have := x.toNat_lt
      rw [List.length_cons]
      omega
  simpa [Header.byteSum] using hfold 0

def sumOf (path : Bytes) (size : Nat) (kind : UInt8) : Nat :=
  Header.byteSum (headerStart path size) + 8 * 32 + Header.byteSum (headerEnd kind)

theorem field_append (c : Bytes) (hstart : a.length = start)
    (hlength : b.length = length) : Header.field (a ++ (b ++ c)) start length = b := by
  subst hstart hlength
  simp [Header.field]

section Header

variable {kind : UInt8}

theorem writeHeader_eq : writeHeader path size kind =
    headerStart path size ++ (octalField 8 (sumOf path size kind) ++ headerEnd kind) := by
  rw [writeHeader, sumOf, List.append_assoc]

variable (h : path.length ≤ pathLimit)
include h

theorem length_padPath : (padTo 100 path).length = 100 :=
  length_padTo h

theorem length_headerStart : (headerStart path size).length = 148 := by
  have hmode : (octalField 8 0o644).length = 8 := by decide
  have hzero : (octalField 8 0).length = 8 := by decide
  have htime : (octalField 12 0).length = 12 := by decide
  simp only [headerStart, length_append, length_padPath h, hmode, hzero, htime, length_sizeField]

theorem sumOf_lt : sumOf path size kind < 2097152 := by
  have hstart := byteSum_le (headerStart path size)
  have hend := byteSum_le (headerEnd kind)
  rw [length_headerStart h] at hstart
  rw [length_headerEnd] at hend
  rw [sumOf]
  omega

theorem length_sumField : (octalField 8 (sumOf path size kind)).length = 8 :=
  length_octalField (by decide)
    ((Nat.length_toDigits_le_iff (by decide) (by decide)).2 (sumOf_lt h))

theorem length_writeHeader : (writeHeader path size kind).length = blockSize := by
  simp only [writeHeader_eq, length_append, length_headerStart h, length_sumField h,
    length_headerEnd]
  rfl

theorem drop_writeHeader : (writeHeader path size kind).drop 156 = headerEnd kind := by
  rw [writeHeader_eq, ← List.append_assoc]
  exact List.drop_left' (by rw [length_append, length_headerStart h, length_sumField h])

theorem isSound_writeHeader : (writeHeader path size kind).isSound := by
  have hstart : (headerStart path size).length = 148 := length_headerStart h
  have htake : (writeHeader path size kind).take 148 = headerStart path size := by
    rw [writeHeader_eq, List.take_left' hstart]
  have hfield : (writeHeader path size kind).field 148 8 = octalField 8 (sumOf path size kind) := by
    rw [writeHeader_eq]
    exact field_append _ hstart (length_sumField h)
  rw [Header.isSound, hfield, octal?_octalField ((sumOf_lt h).trans (by decide)), Header.checksum,
    htake, drop_writeHeader h]
  simp [sumOf]

theorem size?_writeHeader (hsize : size < UInt64.size) :
    (writeHeader path size kind).size? = some size := by
  have hfield : (writeHeader path size kind).field 124 12 = sizeField size := by
    rw [writeHeader_eq, headerStart, List.append_assoc, List.append_assoc]
    refine field_append _ ?_ (length_sizeField size)
    simp only [length_append, length_padPath h]
    decide
  rw [Header.size?, hfield, number?_sizeField hsize]

theorem marks_writeHeader : (writeHeader path size kind).field 257 8 = ofText "ustar  \x00" := by
  have hfield : (writeHeader path size kind).field 257 8 = Header.field (headerEnd kind) 101 8 := by
    rw [Header.field, Header.field, ← drop_writeHeader h, List.drop_drop]
  rw [hfield, headerEnd, padTo, ← List.cons_append, List.append_assoc]
  exact field_append _ (by simp) (by decide)

theorem isExtended_writeHeader : (writeHeader path size kind).isExtended := by
  rw [Header.isExtended, marks_writeHeader h]
  exact decide_eq_true rfl

theorem isStandard_writeHeader : (writeHeader path size kind).isStandard = false := by
  rw [Header.isStandard, marks_writeHeader h]
  decide

theorem head?_drop_writeHeader : ((writeHeader path size kind).drop 156).head? = some kind := by
  rw [drop_writeHeader h]
  rfl

theorem pathBytes_writeHeader (hzero : 0 ∉ path) :
    (writeHeader path size kind).pathBytes = path := by
  have hfield : (writeHeader path size kind).field 0 100 = padTo 100 path := by
    rw [writeHeader_eq, headerStart]
    simp only [List.append_assoc]
    exact field_append (a := []) _ rfl (length_padPath h)
  rw [Header.pathBytes, hfield, isStandard_writeHeader h, padTo, textBytes_append_zeros hzero]
  simp

theorem all_zero_writeHeader (hkind : kind ≠ 0) :
    (writeHeader path size kind).all (· = 0) = false := by
  have hmem : kind ∈ writeHeader path size kind :=
    List.mem_of_mem_drop (List.mem_of_mem_head? (head?_drop_writeHeader h))
  exact Bool.eq_false_iff.2 fun hall =>
    hkind (by simpa using List.all_eq_true.1 hall kind hmem)

theorem kind_writeHeader : (writeHeader path size 0x30).kind = .file := by
  rw [Header.kind, head?_drop_writeHeader h]
  rfl

theorem kind_writeHeader_longName : (writeHeader path size 0x4c).kind = .longName := by
  rw [Header.kind, head?_drop_writeHeader h]
  rfl

end Header

/-! ### Members -/

theorem nextHeader_writeHeader (sound : Bool)
    (rest : Bytes) (h : path.length ≤ pathLimit) (hsize : size < sizeLimit) (hkind : kind ≠ 0) :
    nextHeader ⟨before ++ (writeHeader path size kind ++ rest), sound⟩ none before.length =
      some (some { header := writeHeader path size kind, size, following := rest }) := by
  have hlength : (writeHeader path size kind).length = blockSize := length_writeHeader h
  have htake : (writeHeader path size kind ++ rest).take blockSize = writeHeader path size kind :=
    List.take_left' hlength
  have hdrop : (writeHeader path size kind ++ rest).drop blockSize = rest := List.drop_left' hlength
  have hne : (writeHeader path size kind ++ rest).isEmpty = false := by
    rw [List.isEmpty_eq_false_iff]
    intro hnil
    rw [(List.append_eq_nil_iff.1 hnil).1] at hlength
    cases hlength
  have hfits : ¬ UInt64.size ≤ size + (blockSize - 1) := by
    have : sizeLimit + 512 ≤ UInt64.size := by decide
    have : blockSize = 512 := rfl
    omega
  rw [nextHeader, if_neg (by simp)]
  simp only [List.drop_left, htake, hdrop, hne, hlength, Nat.lt_irrefl, all_zero_writeHeader h hkind,
    isSound_writeHeader h, size?_writeHeader h (hsize.trans (by decide))]
  simp [hfits]

theorem length_padded (b : Bytes) : (padded b).length = paddedSize b.length := by
  refine length_padTo ?_
  change b.length ≤ (b.length + 511) / 512 * 512
  omega

theorem take_padded (b rest : Bytes) : (padded b ++ rest).take b.length = b := by
  rw [padded, padTo, List.append_assoc, List.take_left]

def memberOf (path contents : Bytes) (remarks : Remarks) : Member where
  header := writeHeader path contents.length 0x30
  size := contents.length
  pieces := [.stored contents.length contents]
  remarks

section Reading

variable {path before contents rest : Bytes} {sound : Bool} {fuel : Nat}

theorem readFrom_file (name : Option Bytes) (h : path.length ≤ pathLimit)
    (hsize : contents.length < sizeLimit) :
    readFrom sound (fuel + 1) { longName := name } before.length
        (before ++ (writeHeader path contents.length 0x30 ++ (padded contents ++ rest))) =
      let next := readFrom sound fuel {} (padded contents).length (padded contents ++ rest)
      ⟨memberOf path contents { longName := name } :: next.found, next.faulty⟩ := by
  rw [readFrom]
  simp only [nextHeader_writeHeader sound _ h hsize (by decide : (0x30 : UInt8) ≠ 0),
    kind_writeHeader h, take_padded, length_padded]
  simp [memberOf]

theorem readFrom_longName (h : path.length ≤ pathLimit) (hsize : name.length < sizeLimit) :
    readFrom sound (fuel + 1) {} before.length
        (before ++ (writeHeader path name.length 0x4c ++ (padded name ++ rest))) =
      readFrom sound fuel { longName := some name } (padded name).length (padded name ++ rest) := by
  rw [readFrom]
  simp only [nextHeader_writeHeader sound _ h hsize (by decide : (0x4c : UInt8) ≠ 0),
    kind_writeHeader_longName h, take_padded, length_padded, isExtended_writeHeader h]
  simp

theorem readFrom_ending :
    readFrom sound (fuel + 1) {} before.length (before ++ ending) = ⟨[], false⟩ := by
  have htake : ending.take blockSize = List.replicate blockSize 0 := by
    rw [ending, List.take_replicate]
    rfl
  have hall : (List.replicate blockSize (0 : UInt8)).all (· = 0) := by
    simp
  have hne : ending.isEmpty = false := rfl
  rw [readFrom, nextHeader, if_neg (by simp)]
  simp only [List.drop_left, htake, hall, hne, List.length_replicate, Nat.lt_irrefl]
  rfl

end Reading

/-! ### Paths that are cut off -/

theorem length_fitting (limit : Nat) (cs : List Char) :
    (ofText (String.ofList (fitting limit cs))).length ≤ limit := by
  rw [Bytes.ofText_ofList]
  induction cs generalizing limit with
  | nil => simp [fitting]
  | cons c cs ih =>
    rw [fitting]
    split
    · next hc =>
      have := ih (limit - c.utf8Size)
      rw [List.flatMap_cons, length_append, String.length_utf8EncodeChar]
      omega
    · simp

def weight (texts : List String) : Nat :=
  (texts.map fun s => (ofText s).length + 1).sum

theorem length_ofText_join (texts : List String) :
    (ofText (Text.join "/" texts)).length = weight texts - 1 := by
  match texts with
  | [] => rfl
  | [s] => simp [Text.join, weight]
  | s :: t :: texts =>
    have ih := length_ofText_join (t :: texts)
    have hslash : (ofText "/").length = 1 := by decide
    rw [Text.join_cons_cons, Bytes.ofText_append, Bytes.ofText_append, length_append,
      length_append, ih, hslash]
    simp only [weight, List.map_cons, List.sum_cons]
    omega

theorem weight_filter_le (p : String → Bool) (texts : List String) :
    weight (texts.filter p) ≤ weight texts := by
  induction texts with
  | nil => simp
  | cons s texts ih =>
    rw [List.filter_cons]
    split <;> simp only [weight, List.map_cons, List.sum_cons] at ih ⊢ <;> omega

theorem weight_split (path : String) : weight (Text.split '/' path) = (ofText path).length + 1 := by
  have hjoin := length_ofText_join (Text.split '/' path)
  rw [Text.join_split] at hjoin
  have hpos : 0 < weight (Text.split '/' path) := by
    obtain ⟨s, texts, hsplit⟩ := List.exists_cons_of_ne_nil (Text.split_ne_nil path)
    simp [hsplit, weight]
  omega

/-- Whether a segment of a path that was cut off stays. -/
def staysInCut (segment : String) : Bool :=
  segment ≠ "" && segment ≠ "."

theorem cutPath_eq (path : String) : cutPath path =
    Text.join "/" ((Text.split '/' path).filter staysInCut) ++
      if path.toList.getLast? = some '/' then "/" else "" := by
  -- the start of a path is no name, and of the segments the empty ones and the points go
  have hkept : ∀ segments : List String,
      (segments.filterMap Path.part?).filterMap partText? = segments.filter staysInCut := by
    intro segments
    rw [List.filterMap_filterMap, ← List.filterMap_eq_filter]
    refine List.filterMap_congr fun s _ => ?_
    by_cases hidle : s = "" ∨ s = "."
    · rcases hidle with rfl | rfl <;> rfl
    · have hstays : staysInCut s := by simpa [staysInCut, not_or] using hidle
      by_cases hup : s = ".."
      · subst hup
        rfl
      · simp [Path.part?, hidle, hup, partText?, Option.guard, hstays]
  rw [cutPath, ← hkept, Path.parts, Path.segments]
  congr 2
  split
  · rfl
  split <;> rfl

theorem length_cutPath (path : String) : (ofText (cutPath path)).length ≤ (ofText path).length := by
  rw [cutPath_eq, Bytes.ofText_append, length_append, length_ofText_join]
  split
  · next hlast =>
    obtain ⟨before, hbefore⟩ : ∃ before, path = before ++ "/" ++ "" := by
      obtain ⟨cs, hcs⟩ := List.getLast?_eq_some_iff.1 hlast
      exact ⟨String.ofList cs, String.toList_injective (by simp [hcs])⟩
    rw [hbefore, Text.split_append_slash, List.filter_append]
    have := weight_filter_le staysInCut (Text.split '/' before)
    rw [weight_split] at this
    have hslash : (ofText "/").length = 1 := by decide
    have hnone : (Text.split '/' "").filter staysInCut = [] := by decide
    rw [hnone, List.append_nil, Bytes.ofText_append, Bytes.ofText_append, length_append,
      length_append, hslash]
    omega
  · have := weight_filter_le staysInCut (Text.split '/' path)
    rw [weight_split] at this
    have hnone : (ofText "").length = 0 := by decide
    omega

/-! ### Whole archives -/

/-- A member is a file with a path and contents. -/
structure Member.Holds (m : Member) (path contents : Bytes) : Prop where
  kind : m.header.kind = .file
  standard : m.header.isStandard = false
  named : m.pathBytes = path
  held : m.contents = contents
  size : m.size = contents.length

theorem contents_memberOf (path contents : Bytes) (remarks : Remarks) :
    (memberOf path contents remarks).contents = contents := by
  simp [Member.contents, memberOf, assemble]

theorem holds_memberOf (h : path.length ≤ pathLimit) (hzero : 0 ∉ path) :
    (memberOf path contents {}).Holds path contents where
  kind := kind_writeHeader h
  standard := isStandard_writeHeader h
  named := pathBytes_writeHeader h hzero
  held := contents_memberOf path contents {}
  size := rfl

theorem holds_memberOf_longName (h : start.length ≤ pathLimit) :
    (memberOf start contents { longName := some (name ++ [0]) }).Holds name contents where
  kind := kind_writeHeader h
  standard := isStandard_writeHeader h
  named := by simp [Member.pathBytes, memberOf, Member.dropZero]
  held := contents_memberOf start contents _
  size := rfl

/-- Bytes are read as a file with a path and contents wherever they stand in an archive. Reading them
takes a number of steps, each of which uses up a block at least. -/
def ReadAs (member path contents : Bytes) : Prop :=
  ∃ m steps, m.Holds path contents ∧ steps * blockSize ≤ member.length ∧
    ∀ sound fuel before rest, ∃ before' : Bytes,
      readFrom sound (fuel + steps) {} before.length (before ++ (member ++ rest)) =
        let next := readFrom sound fuel {} before'.length (before' ++ rest)
        ⟨m :: next.found, next.faulty⟩

theorem readAs_of_short (h : path.length ≤ pathLimit) (hzero : 0 ∉ path)
    (hsize : contents.length < sizeLimit) :
    ReadAs (writeHeader path contents.length 0x30 ++ padded contents) path contents := by
  refine ⟨_, 1, holds_memberOf h hzero, ?_, fun sound fuel before rest => ⟨padded contents, ?_⟩⟩
  · rw [length_append, length_writeHeader h]
    omega
  · rw [List.append_assoc]
    exact readFrom_file none h hsize

theorem readAs_of_long (hstart : start.length ≤ pathLimit)
    (hname : name.length + 1 < sizeLimit) (hsize : contents.length < sizeLimit) :
    ReadAs (writeHeader (ofText "././@LongLink") (name.length + 1) 0x4c ++
      padded (name ++ [0]) ++ writeHeader start contents.length 0x30 ++ padded contents) name
      contents := by
  have hlink : (ofText "././@LongLink").length ≤ pathLimit := by decide
  have hlength : (name ++ [0]).length = name.length + 1 := length_append
  refine ⟨_, 2, holds_memberOf_longName hstart, ?_, fun sound fuel before rest =>
    ⟨padded contents, ?_⟩⟩
  · simp only [length_append, length_writeHeader hlink, length_writeHeader hstart]
    omega
  · rw [← hlength] at hname ⊢
    simp only [List.append_assoc]
    rw [show fuel + 2 = fuel + 1 + 1 from rfl, readFrom_longName hlink hname,
      readFrom_file _ hstart hsize]

theorem readAs_of_writeMember {path contents member}
    (h : writeMember? path contents = some member) (hzero : 0 ∉ ofText path)
    (hpath : (ofText path).length + 1 < sizeLimit) :
    ReadAs member (ofText path) contents := by
  rw [writeMember?] at h
  split at h
  · cases h
  next hcond =>
  have hsize : contents.length < sizeLimit := by
    by_contra hlarge
    exact hcond (by simp [Nat.not_lt.1 hlarge])
  simp only at h
  split at h
  · next hshort =>
    cases h
    exact readAs_of_short hshort hzero hsize
  · cases h
    exact readAs_of_long ((length_cutPath _).trans (length_fitting _ _)) hpath hsize

/-- Bytes are the members of files, one after the other. -/
inductive Archived : List (Bytes × Bytes) → Bytes → Prop
  | nil : Archived [] []
  | cons {path contents member bytes : Bytes} {files : List (Bytes × Bytes)} :
      ReadAs member path contents → Archived files bytes →
        Archived ((path, contents) :: files) (member ++ bytes)

theorem readFrom_archived (h : Archived files bytes) :
    ∃ ms, List.Forall₂ (fun file m => Member.Holds m file.1 file.2) files ms ∧
      ∀ sound fuel before, bytes.length < fuel * blockSize →
        readFrom sound fuel {} before.length (before ++ (bytes ++ ending)) = ⟨ms, false⟩ := by
  induction h with
  | nil =>
    refine ⟨[], .nil, fun sound fuel before hfuel => ?_⟩
    obtain ⟨fuel, rfl⟩ : ∃ f, fuel = f + 1 := ⟨fuel - 1, by simp at hfuel; omega⟩
    exact readFrom_ending
  | cons hmember _ ih =>
    obtain ⟨m, steps, hm, hsteps, hread⟩ := hmember
    obtain ⟨ms, hms, hrest⟩ := ih
    refine ⟨m :: ms, .cons hm hms, fun sound fuel before hfuel => ?_⟩
    rw [length_append] at hfuel
    obtain ⟨left, rfl⟩ : ∃ left, fuel = left + steps := ⟨fuel - steps, by
      have := Nat.lt_of_mul_lt_mul_right (Nat.lt_of_le_of_lt (hsteps.trans (Nat.le_add_right _ _)) hfuel)
      omega⟩
    rw [Nat.add_mul] at hfuel
    obtain ⟨before', hnext⟩ := hread sound left before _
    rw [List.append_assoc, hnext, hrest sound left before' (by omega)]

theorem read_archived (h : Archived files bytes) (sound : Bool) :
    ∃ ms, List.Forall₂ (fun file m => Member.Holds m file.1 file.2) files ms ∧
      read ⟨bytes ++ ending, sound⟩ = ⟨ms, false⟩ := by
  obtain ⟨ms, hms, hread⟩ := readFrom_archived h
  refine ⟨ms, hms, hread sound _ [] ?_⟩
  rw [length_append]
  change bytes.length < ((bytes.length + ending.length) / 512 + 2) * 512
  omega

end Tar

end AgentChain
