import AgentChain.Archive.Gzip
import Mathlib.Data.List.Basic

/-!
# Compressed bytes are read back

Bytes that were put into a file as they are come back as the same bytes, and the checksum and the
length after them are found to be right. Such a file has plain blocks only; each of them is read back
whatever follows it.
-/

namespace AgentChain

open Bytes (little little?)

namespace Bytes

/-! ### Little-endian numbers -/

@[simp] theorem length_little (width n : Nat) : (little width n).length = width := by
  induction width generalizing n with
  | zero => rfl
  | succ width ih => rw [little, List.length_cons, ih]

theorem ofLittle_little_two (n : Nat) : ofLittle (little 2 n) = n % 65536 := by
  simp only [little, ofLittle, UInt8.toNat_ofNat']
  omega

theorem ofLittle_little_four (n : Nat) : ofLittle (little 4 n) = n % UInt32.size := by
  simp only [little, ofLittle, UInt8.toNat_ofNat', UInt32.size]
  omega

theorem slice?_append (c : Bytes) (hstart : a.length = start)
    (hcount : b.length = count) : (a ++ (b ++ c)).slice? start count = some b := by
  subst hstart hcount
  simp [slice?]

theorem little?_append (c : Bytes) (width n : Nat) (hstart : a.length = start) :
    (a ++ (little width n ++ c)).little? start width = some (ofLittle (little width n)) := by
  rw [little?, slice?_append c hstart (length_little width n)]
  rfl

end Bytes

namespace Inflate

/-! ### Plain blocks -/

theorem readStored_eq (hs : s.aligned = little 2 plain.length ++
      (little 2 (0xffff - plain.length) ++ (plain ++ rest)))
    (hplain : plain.length ≤ storedLimit) :
    readStored out s = .more (plain.foldl Array.push out) (.ofBytes rest) := by
  have hlength : s.aligned.little? 0 2 = some plain.length := by
    have h := Bytes.little?_append (a := []) (little 2 (0xffff - plain.length) ++
      (plain ++ rest)) 2 plain.length rfl
    have hmod : plain.length % 65536 = plain.length := Nat.mod_eq_of_lt (Nat.lt_succ_of_le hplain)
    rw [Bytes.ofLittle_little_two, hmod] at h
    rw [hs]
    exact h
  have hcomplement : s.aligned.little? 2 2 = some (0xffff - plain.length) := by
    rw [hs, Bytes.little?_append _ _ _ (Bytes.length_little 2 _), Bytes.ofLittle_little_two]
    congr 1
    omega
  have hdrop : s.aligned.drop 4 = plain ++ rest := by
    rw [hs, ← List.append_assoc]
    exact List.drop_left' (by simp)
  have hsum : plain.length + (0xffff - plain.length) = 0xffff := Nat.add_sub_cancel' hplain
  simp [readStored, hlength, hcomplement, hdrop, hsum, ← List.drop_drop]

def firstByte (last : Bool) : UInt8 :=
  if last then 1 else 0

theorem number?_last (last : Bool) (tail : Bytes) :
    (Bits.ofBytes (firstByte last :: tail)).number? 1 =
      some (if last then 1 else 0, ⟨firstByte last :: tail, 1⟩) := by
  cases last <;> rfl

theorem number?_kind (last : Bool) (tail : Bytes) :
    (⟨firstByte last :: tail, 1⟩ : Bits).number? 2 = some (0, ⟨firstByte last :: tail, 3⟩) := by
  cases last <;> simp [Bits.number?, Bits.next?, firstByte]

theorem readBlocks_storedBlock (fuel : Nat) (out : Array UInt8) (last : Bool)
    (rest : Bytes) (hb : b.length ≤ storedLimit) :
    readBlocks (fuel + 1) out (.ofBytes (storedBlock last b ++ rest)) =
      if last then ⟨b.foldl Array.push out, .complete, rest⟩
      else readBlocks fuel (b.foldl Array.push out) (.ofBytes rest) := by
  have hblock : storedBlock last b ++ rest = firstByte last :: (little 2 b.length ++
      (little 2 (0xffff - b.length) ++ (b ++ rest))) := by
    simp [storedBlock, firstByte]
  have hstored : readStored out ⟨firstByte last :: (little 2 b.length ++
      (little 2 (0xffff - b.length) ++ (b ++ rest))), 3⟩ =
      .more (b.foldl Array.push out) (.ofBytes rest) := readStored_eq (by simp [Bits.aligned]) hb
  rw [readBlocks, hblock, number?_last]
  simp only
  rw [number?_kind]
  simp only [readBlock]
  rw [hstored]
  cases last <;> rfl

theorem readBlocks_storedFrom (out : Array UInt8) (rest : Bytes)
    (hb : b.length / storedLimit ≤ count) (hfuel : count < fuel) :
    readBlocks fuel out (.ofBytes (storedFrom count b ++ rest)) =
      ⟨b.foldl Array.push out, .complete, rest⟩ := by
  have hlimit : 0 < storedLimit := by decide
  induction count generalizing fuel out b with
  | zero =>
    obtain ⟨fuel, rfl⟩ := Nat.exists_eq_add_of_lt hfuel
    have hshort : b.length < storedLimit := by
      rwa [Nat.le_zero, Nat.div_eq_zero_iff_lt hlimit] at hb
    rw [storedFrom, Nat.zero_add, readBlocks_storedBlock _ _ _ _ (Nat.le_of_lt hshort), if_pos rfl]
  | succ count ih =>
    obtain ⟨fuel, rfl⟩ : ∃ f, fuel = f + 1 := ⟨fuel - 1, by omega⟩
    rw [storedFrom]
    split
    · next hshort => rw [readBlocks_storedBlock _ _ _ _ hshort, if_pos rfl]
    · next hlong =>
      have hleft : (b.drop storedLimit).length / storedLimit ≤ count := by
        rw [Nat.div_eq_sub_div hlimit (Nat.le_of_not_le hlong)] at hb
        rw [List.length_drop]
        omega
      rw [List.append_assoc, readBlocks_storedBlock _ _ _ _ (List.length_take_le _ _),
        if_neg (by simp),
        ih _ hleft (by omega), ← List.foldl_append, List.take_append_drop]

theorem length_le_storedFrom (count : Nat) (b : Bytes) : b.length ≤ (storedFrom count b).length := by
  induction count generalizing b with
  | zero => simp [storedFrom, storedBlock]; omega
  | succ count ih =>
    rw [storedFrom]
    split
    · simp [storedBlock]; omega
    · have := ih (b.drop storedLimit)
      simp [storedBlock] at this ⊢
      omega

theorem run_stored (b rest : Bytes) : run (stored b ++ rest) = ⟨b.toArray, .complete, rest⟩ := by
  have hlength := length_le_storedFrom (b.length / storedLimit) b
  have hcount : b.length / storedLimit ≤ b.length := Nat.div_le_self _ _
  have hout : b.foldl Array.push #[] = b.toArray := Array.toList_inj.1 (by simp)
  rw [run, stored, readBlocks_storedFrom _ _ (Nat.le_refl _) (by rw [List.length_append]; omega), hout]

end Inflate

namespace Gzip

/-! ### Whole files -/

theorem dropHeader?_header (rest : Bytes) : dropHeader? (header ++ rest) = some rest :=
  rfl

theorem decode_stored (data : Bytes) : decode (stored data) = ⟨data, true⟩ := by
  have hcrc : (Crc32.checksum data).toNat % UInt32.size = (Crc32.checksum data).toNat :=
    Nat.mod_eq_of_lt (UInt32.toNat_lt_size _)
  have hsound : isSound data (little 4 (Crc32.checksum data).toNat ++
      little 4 data.length) := by
    have hsum := Bytes.little?_append (a := []) (little 4 data.length) 4
      (Crc32.checksum data).toNat rfl
    have hsize := Bytes.little?_append [] 4 data.length
      (Bytes.length_little 4 (Crc32.checksum data).toNat)
    rw [List.append_nil] at hsize
    rw [Bytes.ofLittle_little_four] at hsum hsize
    rw [isSound, hsize]
    simpa [hcrc] using hsum
  rw [decode, stored, List.append_assoc, List.append_assoc, dropHeader?_header]
  simp only [Inflate.run_stored, Inflate.Outcome.delivered, hsound]
  simp

instance : LawfulEncoder :=
  ⟨decode_stored⟩

end Gzip

end AgentChain
