import AgentChain.Proofs.FileTree.Path

/-!
# Names as they are shown

A name that is no text is shown with replacement characters. Such a name is still one name: no slash
comes into it, and it is not mistaken for the directory itself or the one above.
-/

namespace AgentChain

namespace Bytes

variable {lead x : UInt8} {rest b : Bytes} {tails : Nat} {c : Char} {cs : List Char}

theorem tailLength?_eq_some (h : tailLength? lead = some tails) :
    (tails = 0 ∧ lead.toNat < 128) ∨ (tails = 1 ∧ 0xc2 ≤ lead.toNat ∧ lead.toNat ≤ 0xdf) ∨
      (tails = 2 ∧ 0xe0 ≤ lead.toNat ∧ lead.toNat ≤ 0xef) ∨
      (tails = 3 ∧ 0xf0 ≤ lead.toNat ∧ lead.toNat ≤ 0xf4) := by
  simp only [tailLength?, UInt8.lt_iff_toNat_lt, UInt8.le_iff_toNat_le, Bool.and_eq_true,
    decide_eq_true_eq] at h
  split at h
  · next hlead => exact .inl ⟨(Option.some.inj h).symm, hlead⟩
  split at h
  · next hlead => exact .inr (.inl ⟨(Option.some.inj h).symm, hlead⟩)
  split at h
  · next hlead => exact .inr (.inr (.inl ⟨(Option.some.inj h).symm, hlead⟩))
  split at h
  · next hlead => exact .inr (.inr (.inr ⟨(Option.some.inj h).symm, hlead⟩))
  · cases h

theorem of_mayFollow (h : mayFollow lead x) :
    (lead.toNat = 0xe0 → 32 ≤ x.toNat % 64) ∧ (lead.toNat = 0xf0 → 16 ≤ x.toNat % 64) := by
  constructor
  · intro hlead
    obtain rfl : lead = 0xe0 := UInt8.toNat_inj.1 hlead
    simp only [mayFollow, beq_self_eq_true, if_true, UInt8.le_iff_toNat_le, Bool.and_eq_true,
      decide_eq_true_eq] at h
    obtain ⟨h₁, h₂⟩ := h
    simp only [UInt8.reduceToNat] at h₁ h₂
    omega
  · intro hlead
    obtain rfl : lead = 0xf0 := UInt8.toNat_inj.1 hlead
    simp [mayFollow, UInt8.le_iff_toNat_le] at h
    omega

theorem le_code (htails : tailLength? lead = some tails) (hpos : 0 < tails)
    (hlength : (tailOf lead tails rest).length = tails) :
    128 ≤ (tailOf lead tails rest).foldl (fun acc b => acc * 64 + b.toNat % 64)
      (leadBits lead tails) := by
  obtain ⟨x, tail, htail, hx⟩ : ∃ x tail, tailOf lead tails rest = x :: tail ∧
      mayFollow lead x := by
    cases rest with
    | nil => exact absurd (hlength.symm.trans rfl) (Nat.ne_of_gt hpos)
    | cons x more =>
      rw [tailOf] at hlength ⊢
      split at hlength
      · next h =>
        rw [if_pos h]
        exact ⟨x, _, rfl, (Bool.and_eq_true_iff.1 h).2⟩
      · exact absurd (hlength.symm.trans rfl) (Nat.ne_of_gt hpos)
  rw [htail] at hlength ⊢
  obtain ⟨he0, hf0⟩ := of_mayFollow hx
  rw [List.foldl_cons]
  rcases tailLength?_eq_some htails with ⟨rfl, -⟩ | ⟨rfl, hlead⟩ | ⟨rfl, hlead⟩ | ⟨rfl, hlead⟩
  · cases hpos
  · obtain rfl := List.length_eq_zero_iff.1 (Nat.succ.inj hlength)
    simp only [List.foldl_nil, leadBits]
    omega
  · obtain ⟨y, rfl⟩ := List.length_eq_one_iff.1 (Nat.succ.inj hlength)
    simp only [List.foldl_cons, List.foldl_nil, leadBits]
    omega
  · obtain ⟨y, z, rfl⟩ := List.length_eq_two.1 (Nat.succ.inj hlength)
    simp only [List.foldl_cons, List.foldl_nil, leadBits]
    omega

theorem toNat_ofNat_cases (n : Nat) : (Char.ofNat n).toNat = n ∨ (Char.ofNat n).toNat = 0 := by
  by_cases hvalid : n.isValidChar
  · rw [Char.ofNat, dif_pos hvalid]
    exact .inl rfl
  · rw [Char.ofNat, dif_neg hvalid]
    exact .inr rfl

theorem toNat_ofNat (hn : n < 128) : (Char.ofNat n).toNat = n := by
  have hvalid : n.isValidChar := .inl (by omega)
  rw [Char.ofNat, dif_pos hvalid]
  rfl

theorem lossyChars_cons (hc : c = '/' ∨ c = '.') (h : lossyChars b = c :: cs) :
    ∃ rest, b = UInt8.ofNat c.toNat :: rest ∧ lossyChars rest = cs := by
  have hascii : c.toNat < 128 ∧ c.toNat ≠ 0 ∧ '�' ≠ c := by
    rcases hc with rfl | rfl <;> decide
  cases b with
  | nil => simp [lossyChars] at h
  | cons lead rest =>
    rw [lossyChars] at h
    split at h
    · exact absurd (List.cons.inj h).1 hascii.2.2
    · next tails htails =>
      obtain ⟨hhead, hrest⟩ := List.cons.inj h
      by_cases hpos : 0 < tails
      · split at hhead
        · next hlength =>
          have hcode := le_code htails hpos hlength
          rcases toNat_ofNat_cases (List.foldl _ _ (tailOf lead tails rest)) with h | h
          · rw [hhead] at h
            omega
          · rw [hhead] at h
            exact absurd h hascii.2.1
        · exact absurd hhead hascii.2.2
      · obtain rfl : tails = 0 := by omega
        have hlead : lead.toNat < 128 := by
          rcases tailLength?_eq_some htails with h | h | h | h <;> omega
        have htail : tailOf lead 0 rest = [] := by cases rest <;> simp [tailOf]
        rw [htail] at hhead hrest
        refine ⟨rest, ?_, by simpa using hrest⟩
        simp only [List.length_nil, List.foldl_nil, leadBits, if_true] at hhead
        rw [← hhead, toNat_ofNat hlead, UInt8.ofNat_toNat]

theorem exists_lossyChars (lead : UInt8) (rest : Bytes) :
    ∃ c k, lossyChars (lead :: rest) = c :: lossyChars (rest.drop k) := by
  rw [lossyChars]
  split
  · exact ⟨_, 0, rfl⟩
  · exact ⟨_, _, rfl⟩

theorem slash_mem_of_mem_lossyChars (h : '/' ∈ lossyChars b) : Name.slash ∈ b := by
  induction hn : b.length using Nat.strongRecOn generalizing b with
  | ind n ih =>
    cases b with
    | nil => simp [lossyChars] at h
    | cons lead rest =>
      obtain ⟨c, k, hcs⟩ := exists_lossyChars lead rest
      rw [hcs] at h
      rcases List.mem_cons.1 h with rfl | h
      · obtain ⟨rest', hrest, -⟩ := lossyChars_cons (.inl rfl) hcs
        rw [hrest]
        exact List.mem_cons_self
      · have hlt : (rest.drop k).length < n := by
          rw [← hn, List.length_drop, List.length_cons]
          omega
        exact List.mem_cons_of_mem _ (List.mem_of_mem_drop (ih _ hlt h rfl))

theorem eq_nil_of_lossyChars (h : lossyChars b = []) : b = [] := by
  cases b with
  | nil => rfl
  | cons lead rest =>
    obtain ⟨c, k, hcs⟩ := exists_lossyChars lead rest
    rw [hcs] at h
    cases h

theorem eq_of_lossyChars_eq_replicate (h : lossyChars b = List.replicate k '.') :
    b = List.replicate k 0x2e := by
  induction k generalizing b with
  | zero => exact eq_nil_of_lossyChars h
  | succ k ih =>
    obtain ⟨rest, rfl, hrest⟩ := lossyChars_cons (.inr rfl) h
    rw [ih hrest]
    rfl

end Bytes

theorem Path.isName_of_proper (h : Name.Proper (Bytes.ofText s)) : IsName s := by
  refine ⟨?_, ?_, ?_, ?_⟩
  · rintro rfl
    exact h.ne_nil rfl
  · rintro rfl
    exact h.ne_here rfl
  · rintro rfl
    exact h.ne_up rfl
  · rw [← Bytes.slash_mem_ofText_iff]
    exact h.no_slash

theorem Name.Proper.isName_lossyText {n : Name} (h : n.Proper) : Path.IsName (Bytes.lossyText n) := by
  rw [Bytes.lossyText]
  cases htext : Bytes.text? n with
  | some t =>
    obtain rfl := Bytes.ofText_of_text? htext
    exact Path.isName_of_proper h
  | none =>
    rw [Option.getD_none]
    have hne : ∀ k, Bytes.lossyChars n ≠ List.replicate k '.' := by
      intro k hk
      have htext' : n = Bytes.ofText (String.ofList (List.replicate k '.')) := by
        rw [Bytes.eq_of_lossyChars_eq_replicate hk, Bytes.ofText_ofList]
        clear hk
        induction k with
        | zero => rfl
        | succ k ih =>
          rw [List.replicate_succ, List.replicate_succ, List.flatMap_cons, ← ih]
          rfl
      rw [htext', Bytes.text?_ofText] at htext
      cases htext
    refine ⟨fun heq => hne 0 ?_, fun heq => hne 1 ?_, fun heq => hne 2 ?_, fun hmem => ?_⟩
    · simpa using congrArg String.toList heq
    · simpa using congrArg String.toList heq
    · simpa using congrArg String.toList heq
    · rw [String.toList_ofList] at hmem
      exact h.no_slash (Bytes.slash_mem_of_mem_lossyChars hmem)

end AgentChain
