import AgentChain.FileTree.Route
import Mathlib.Data.List.Induction

/-!
# The parts of texts and of their bytes

A written path is a text, and it is followed as a sequence of bytes. Cutting the bytes of a text at
slashes gives the bytes of the parts of the text, since no other character has the byte of a slash
in its encoding. Joining parts without slashes and cutting the result gives the parts back.
-/

namespace AgentChain

open String (utf8EncodeChar)

namespace Bytes

/-! ### Parts -/

variable {x y : UInt8} {a b s : Bytes}

theorem split_eq_splitOn (x : UInt8) (b : Bytes) : split x b = b.splitOn x := by
  induction b with
  | nil => rfl
  | cons y b ih =>
    obtain ⟨s, parts, hs⟩ := List.exists_cons_of_ne_nil (List.splitOn_ne_nil x b)
    rw [split, ih, List.splitOn_cons_eq_if_modifyHead, hs]
    simp

theorem split_ne_nil (x : UInt8) (b : Bytes) : split x b ≠ [] := by
  simpa only [split_eq_splitOn] using List.splitOn_ne_nil x b

@[simp] theorem split_nil (x : UInt8) : split x [] = [[]] :=
  rfl

theorem split_append_cons (x : UInt8) (a b : Bytes) :
    split x (a ++ x :: b) = split x a ++ split x b := by
  simp only [split_eq_splitOn, List.splitOn_append_cons_self]

@[simp] theorem split_cons_self (x : UInt8) (b : Bytes) : split x (x :: b) = [] :: split x b :=
  split_append_cons x [] b

theorem split_cons_of_ne (h : y ≠ x) (hb : split x b = s :: parts) :
    split x (y :: b) = (y :: s) :: parts := by
  rw [split, hb]
  simp [h]

theorem split_append_of_not_mem (ha : x ∉ a) (hb : split x b = s :: parts) :
    split x (a ++ b) = (a ++ s) :: parts := by
  induction a with
  | nil => exact hb
  | cons y a ih =>
    have hy : y ≠ x := fun h => ha (h ▸ List.mem_cons_self)
    exact split_cons_of_ne hy (ih fun h => ha (List.mem_cons_of_mem y h))

theorem split_of_not_mem (ha : x ∉ a) : split x a = [a] := by
  rw [split_eq_splitOn, List.splitOn_eq_singleton ha]

theorem of_mem_split (h : s ∈ split x b) : x ∉ s ∧ ∀ y ∈ s, y ∈ b := by
  induction b generalizing s with
  | nil => simp_all
  | cons y b ih =>
    obtain ⟨s', parts, hs⟩ := List.exists_cons_of_ne_nil (split_ne_nil x b)
    have hparts : ∀ p ∈ s' :: parts, x ∉ p ∧ ∀ z ∈ p, z ∈ b := fun p hp => ih (hs ▸ hp)
    have hgrow : ∀ p ∈ s' :: parts, x ∉ p ∧ ∀ z ∈ p, z ∈ y :: b := fun p hp =>
      ⟨(hparts p hp).1, fun z hz => List.mem_cons_of_mem y ((hparts p hp).2 z hz)⟩
    by_cases hy : y = x
    · subst hy
      rw [split_cons_self, hs] at h
      rcases List.mem_cons.1 h with rfl | h
      · simp
      · exact hgrow s h
    · rw [split_cons_of_ne hy hs] at h
      rcases List.mem_cons.1 h with rfl | h
      · obtain ⟨hx, hsub⟩ := hgrow s' List.mem_cons_self
        refine ⟨fun hmem => ?_, fun z hz => ?_⟩
        · rcases List.mem_cons.1 hmem with hxy | hmem
          · exact hy hxy.symm
          · exact hx hmem
        · rcases List.mem_cons.1 hz with rfl | hz
          · exact List.mem_cons_self
          · exact hsub z hz
      · exact hgrow s (List.mem_cons_of_mem _ h)

/-! ### Texts as bytes -/

theorem ofText_eq (s : String) : ofText s = s.toList.flatMap utf8EncodeChar := by
  rw [ofText, String.toUTF8_eq_toByteArray, ← String.utf8Encode_toList, List.utf8Encode,
    List.toList_data_toByteArray]

@[simp] theorem ofText_append (s t : String) : ofText (s ++ t) = ofText s ++ ofText t := by
  simp only [ofText_eq, String.toList_append, List.flatMap_append]

theorem ofText_ofList (cs : List Char) : ofText (String.ofList cs) = cs.flatMap utf8EncodeChar := by
  rw [ofText_eq, String.toList_ofList]

theorem ofText_injective {s t} (h : ofText s = ofText t) : s = t := by
  have hs := text?_ofText s
  rw [h, text?_ofText] at hs
  exact (Option.some.inj hs).symm

@[simp] theorem ofText_eq_nil_iff {s} : ofText s = [] ↔ s = "" := by
  refine ⟨fun h => ofText_injective (h.trans rfl), ?_⟩
  rintro rfl
  rfl

theorem ofText_of_text? (h : text? b = some t) : ofText t = b := by
  unfold text? String.fromUTF8? at h
  split at h
  · cases h
    simp [ofText, String.toUTF8_eq_toByteArray, String.fromUTF8]
  · cases h

@[simp] theorem lossyText_ofText (s : String) : lossyText (ofText s) = s := by
  rw [lossyText, text?_ofText, Option.getD_some]

theorem utf8EncodeChar_of_le (h : c.val.toNat ≤ 127) :
    utf8EncodeChar c = [UInt8.ofNat c.val.toNat] := by
  rw [utf8EncodeChar, if_pos h]

theorem ofText_ofList_of_le (h : ∀ c ∈ cs, c.val.toNat ≤ 127) :
    ofText (String.ofList cs) = cs.map fun c => UInt8.ofNat c.val.toNat := by
  rw [ofText_ofList]
  induction cs with
  | nil => rfl
  | cons c cs ih =>
    rw [List.flatMap_cons, utf8EncodeChar_of_le (h c List.mem_cons_self),
      ih fun c hc => h c (List.mem_cons_of_mem _ hc)]
    rfl

theorem le_of_mem_utf8EncodeChar (h : 127 < c.val.toNat)
    (hy : y ∈ utf8EncodeChar c) : 128 ≤ y.toNat := by
  rw [utf8EncodeChar, if_neg (Nat.not_le.2 h)] at hy
  split at hy
  · simp only [List.mem_cons, List.not_mem_nil, or_false] at hy
    rcases hy with rfl | rfl <;> simp only [UInt8.toNat_ofNat'] <;> omega
  split at hy
  · simp only [List.mem_cons, List.not_mem_nil, or_false] at hy
    rcases hy with rfl | rfl | rfl <;> simp only [UInt8.toNat_ofNat'] <;> omega
  · simp only [List.mem_cons, List.not_mem_nil, or_false] at hy
    rcases hy with rfl | rfl | rfl | rfl <;> simp only [UInt8.toNat_ofNat'] <;> omega

theorem mem_utf8EncodeChar_iff (hk : k.val.toNat ≤ 127) :
    UInt8.ofNat k.val.toNat ∈ utf8EncodeChar c ↔ c = k := by
  by_cases hc : c.val.toNat ≤ 127
  · rw [utf8EncodeChar_of_le hc, List.mem_singleton]
    constructor
    · intro h
      have hnat := congrArg UInt8.toNat h
      simp only [UInt8.toNat_ofNat'] at hnat
      exact Char.ext (UInt32.toNat_inj.1 (by omega))
    · rintro rfl
      rfl
  · constructor
    · intro h
      have := le_of_mem_utf8EncodeChar (Nat.not_le.1 hc) h
      simp only [UInt8.toNat_ofNat'] at this
      omega
    · rintro rfl
      exact absurd hk hc

theorem mem_ofText_iff (hk : k.val.toNat ≤ 127) (s : String) :
    UInt8.ofNat k.val.toNat ∈ ofText s ↔ k ∈ s.toList := by
  rw [ofText_eq, List.mem_flatMap]
  constructor
  · rintro ⟨c, hc, hmem⟩
    exact (mem_utf8EncodeChar_iff hk).1 hmem ▸ hc
  · exact fun h => ⟨k, h, (mem_utf8EncodeChar_iff hk).2 rfl⟩

theorem slash_mem_ofText_iff (s : String) : Name.slash ∈ ofText s ↔ '/' ∈ s.toList :=
  mem_ofText_iff (k := '/') (by decide) s

end Bytes

namespace Text

/-! ### Parts of texts -/

variable {k c : Char} {cs part : List Char} {parts : List (List Char)}

theorem splitAtChar_eq_splitOn (k : Char) (cs : List Char) : splitAtChar k cs = cs.splitOn k := by
  induction cs with
  | nil => rfl
  | cons c cs ih =>
    obtain ⟨p, parts, hp⟩ := List.exists_cons_of_ne_nil (List.splitOn_ne_nil k cs)
    rw [splitAtChar, ih, List.splitOn_cons_eq_if_modifyHead, hp]
    simp

theorem splitAtChar_ne_nil (k : Char) (cs : List Char) : splitAtChar k cs ≠ [] := by
  simpa only [splitAtChar_eq_splitOn] using List.splitOn_ne_nil k cs

@[simp] theorem splitAtChar_cons_self (k : Char) (cs : List Char) :
    splitAtChar k (k :: cs) = [] :: splitAtChar k cs := by
  rw [splitAtChar, if_pos rfl]

theorem splitAtChar_of_not_mem (hcs : k ∉ cs) : splitAtChar k cs = [cs] := by
  rw [splitAtChar_eq_splitOn, List.splitOn_eq_singleton hcs]

theorem toList_join (parts : List String) :
    (join "/" parts).toList = ['/'].intercalate (parts.map String.toList) := by
  rw [join, String.toList_intercalate]
  rfl

theorem join_cons_cons (s t : String) (parts : List String) :
    join "/" (s :: t :: parts) = s ++ "/" ++ join "/" (t :: parts) := by
  apply String.toList_injective
  simp [toList_join, List.intercalate]

theorem split_join {parts} (hne : parts ≠ []) (h : ∀ p ∈ parts, '/' ∉ p.toList) :
    split '/' (join "/" parts) = parts := by
  rw [split, toList_join, splitAtChar_eq_splitOn, List.splitOn_intercalate, List.map_map]
  · simp [Function.comp_def]
  · simpa using h
  · simpa using hne

theorem join_split (s : String) : join "/" (split '/' s) = s := by
  apply String.toList_injective
  rw [toList_join, split, List.map_map]
  simp [Function.comp_def, splitAtChar_eq_splitOn]

theorem split_append_slash (s t : String) :
    split '/' (s ++ "/" ++ t) = split '/' s ++ split '/' t := by
  simp only [split, ← List.map_append, splitAtChar_eq_splitOn, ← List.splitOn_append_cons_self]
  simp

theorem split_ne_nil (s : String) : split '/' s ≠ [] := by
  simpa [split] using splitAtChar_ne_nil '/' s.toList

end Text

namespace Bytes

theorem split_flatMap_utf8EncodeChar (cs : List Char) :
    split Name.slash (cs.flatMap utf8EncodeChar) =
      (Text.splitAtChar '/' cs).map fun part => part.flatMap utf8EncodeChar := by
  induction cs with
  | nil => rfl
  | cons c cs ih =>
    obtain ⟨p, parts, hp⟩ := List.exists_cons_of_ne_nil (Text.splitAtChar_ne_nil '/' cs)
    rw [hp, List.map_cons] at ih
    rw [List.flatMap_cons]
    by_cases hc : c = '/'
    · subst hc
      rw [Text.splitAtChar_cons_self, hp, List.map_cons, List.map_cons, ← ih]
      exact split_cons_self _ _
    · have hslash : Name.slash ∉ utf8EncodeChar c := fun h =>
        hc ((mem_utf8EncodeChar_iff (k := '/') (by decide)).1 h)
      rw [Text.splitAtChar, if_neg hc, hp, split_append_of_not_mem hslash ih]
      simp

theorem split_ofText (s : String) :
    split Name.slash (ofText s) = (Text.split '/' s).map ofText := by
  rw [ofText_eq, split_flatMap_utf8EncodeChar, Text.split, List.map_map]
  simp only [Function.comp_def, ofText_ofList]

end Bytes

end AgentChain
