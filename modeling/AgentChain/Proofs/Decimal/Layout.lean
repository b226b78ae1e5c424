import AgentChain.Decimal.Layout
import AgentChain.Proofs.Decimal.Reading
import AgentChain.Proofs.Decimal.Shortest

/-!
# Written floats can be read

The written form of a finite float in a document is a numeral: a whole part without a needless zero,
and a fraction or a power of ten. Its digits fit sixty-four bits, and reading it gives a finite
float again. Only near the largest float is this a close matter, since the two roundings of the
reader may both go up: the three largest floats are worked out one by one.
-/

namespace AgentChain

open Binary64 (limit)
open Binary
open Nat (toDigits)

/-! ### The bits of a finite float -/

theorem Binary64.exponentField_ne_of_isFinite {x : Float} (hx : x.isFinite) :
    x.toBits.toNat / 2 ^ 52 % 2 ^ 11 ≠ 2047 := by
  intro hfield
  have hlast : @Float.Model.UnpackedFloat.unpackExponent .binary64 x.toModel.toBits.toBitVec =
      -1#_ := by
    refine BitVec.eq_of_toNat_eq (Eq.trans ?_ hfield)
    change (x.toBits.toNat >>> 52) % 2 ^ 11 = _
    rw [Nat.shiftRight_eq_div_pow]
  change (Float.Model.UnpackedFloat.unpack .binary64 x.toModel.toBits.toBitVec).isFinite =
    true at hx
  unfold Float.Model.UnpackedFloat.unpack at hx
  simp only [hlast, if_true] at hx
  split_ifs at hx <;> cases hx

theorem Binary.fits_ofFloat {x : Float} (hx : x.isFinite)
    (hzero : (ofFloat x).mantissa ≠ 0) : (ofFloat x).Fits := by
  have hfield := Binary64.exponentField_ne_of_isFinite hx
  have hfraction := Nat.mod_lt x.toBits.toNat (Nat.two_pow_pos 52)
  simp only [ofFloat, Nat.one_shiftLeft, Nat.shiftRight_eq_div_pow] at hzero ⊢
  split_ifs at hzero ⊢ with hsubnormal
  · exact ⟨Nat.pos_of_ne_zero hzero, by dsimp only; omega, le_rfl, by dsimp only; omega, by simp⟩
  · refine ⟨Nat.pos_of_ne_zero hzero, by dsimp only; omega, by dsimp only; omega,
      by dsimp only; omega, fun hnarrow => ?_⟩
    simp only [Bool.and_eq_true, decide_eq_true_eq] at hnarrow
    dsimp only
    omega

/-! ### Shortest decimals -/

namespace Decimal

/-- All floats but the three largest are far enough from the end of the range for two roundings. -/
theorem raised_lt_limit {b : Binary} (hb : b.Fits)
    (hfar : b.exponent ≤ 970 ∨ b.mantissa ≤ 2 ^ 53 - 4) :
    (2 * (b.mantissa : ℚ) + 1) * 2 ^ (b.exponent - 1) * raised ^ 2 < limit := by
  have hmantissa : (b.mantissa : ℚ) + 1 ≤ 2 ^ 53 := by exact_mod_cast hb.lt
  have hpower {k : Nat} (h : b.exponent - 1 ≤ k) : (2 : ℚ) ^ (b.exponent - 1) ≤ 2 ^ k := by
    rw [← zpow_natCast]
    exact zpow_le_zpow_right₀ one_le_two h
  rw [mul_right_comm, limit]
  obtain hexponent | hmost := hfar
  · have hhalf : (2 : ℚ) ^ 970 = 2 * 2 ^ 969 := pow_succ' 2 969
    have hpart : (2 * (b.mantissa : ℚ) + 1) * raised ^ 2 < (2 ^ 54 - 1) * 2 := by
      norm_num [raised] at hmantissa ⊢
      linarith
    rw [hhalf, ← mul_assoc]
    exact mul_lt_mul hpart (hpower (k := 969) (by omega)) (by positivity) (by norm_num)
  · have hmost' : (b.mantissa : ℚ) + 4 ≤ 2 ^ 53 := by exact_mod_cast (by omega)
    have hpart : (2 * (b.mantissa : ℚ) + 1) * raised ^ 2 < 2 ^ 54 - 1 := by
      norm_num [raised] at hmost' ⊢
      linarith
    have := hb.exponent_le
    exact mul_lt_mul hpart (hpower (k := 970) (by omega)) (by positivity) (by norm_num)

theorem hasFloat_largest (hlow : 2 ^ 53 - 4 < m) (hhigh : m < 2 ^ 53) :
    HasFloat (shortest ⟨m, 971, false⟩).digits (shortest ⟨m, 971, false⟩).exponent := by
  have hall : ∀ i : Fin 3, ((fun d : Decimal => scaled? d.digits d.exponent)
      (shortest ⟨2 ^ 53 - 3 + i.val, 971, false⟩)).any Float.isFinite := by
    decide +kernel
  obtain ⟨i, rfl⟩ : ∃ i : Fin 3, m = 2 ^ 53 - 3 + i.val :=
    ⟨⟨m - (2 ^ 53 - 3), by omega⟩, by dsimp only; omega⟩
  exact hasFloat_iff.mpr (hall i)

theorem hasFloat_shortest (hx : x.isFinite) :
    HasFloat (ofFloat x).shortest.digits (ofFloat x).shortest.exponent := by
  by_cases hzero : (ofFloat x).mantissa = 0
  · rw [shortest, if_pos hzero]
    exact hasFloat_iff.mpr (by decide +kernel)
  · have hfits := fits_ofFloat hx hzero
    generalize ofFloat x = b at hfits
    obtain ⟨-, hdigits, hvalue⟩ := shortest_spec hfits
    by_cases hfar : b.exponent ≤ 970 ∨ b.mantissa ≤ 2 ^ 53 - 4
    · refine hasFloat_of_lt (hdigits.trans_lt (by decide)) fun hpos => ?_
      refine lt_of_le_of_lt ?_ (raised_lt_limit hfits hfar)
      rw [← zpow_natCast, Int.toNat_of_nonneg hpos]
      gcongr
    · obtain ⟨m, e, narrow⟩ := b
      have := hfits.exponent_le
      obtain rfl : e = 971 := by dsimp only at *; omega
      obtain rfl : narrow = false := by
        cases narrow with
        | false => rfl
        | true =>
          have := hfits.narrow rfl
          dsimp only at *
          omega
      exact hasFloat_largest (by dsimp only at *; omega) hfits.lt

/-! ### Numerals -/

/-- The parts of a written number. -/
structure Numeral where
  whole : List Char
  fraction : List Char
  power : Option Int

namespace Numeral

def chars (n : Numeral) : List Char :=
  n.whole ++
    ((if n.fraction = [] then [] else '.' :: n.fraction) ++
      n.power.elim [] fun e => 'e' :: Layout.signedDigits e)

def significand (n : Numeral) : Nat :=
  Nat.ofDigitChars 10 (n.whole ++ n.fraction) 0

def shift (n : Numeral) : Int :=
  n.power.getD 0 - n.fraction.length

/-- The rules of a written number: the whole part has a digit, and it starts with a zero only if
that is all of it. -/
structure Valid (n : Numeral) : Prop where
  whole_ne_nil : n.whole ≠ []
  isDigit_whole : ∀ c ∈ n.whole, c.isDigit = true
  isDigit_fraction : ∀ c ∈ n.fraction, c.isDigit = true
  lead : n.whole.length = 1 ∨ n.whole.head? ≠ some '0'

end Numeral

theorem isDigit_of_mem_toDigits (h : c ∈ toDigits 10 n) : c.isDigit :=
  Nat.isDigit_of_mem_toDigits (by decide) (by decide) h

theorem head?_toDigits (hn : n ≠ 0) : (toDigits 10 n).head? ≠ some '0' := by
  induction n using Nat.strongRecOn with
  | ind n ih =>
    rw [Nat.toDigits_eq_if (by decide)]
    split_ifs with hsmall
    · simp [hn]
    · rw [List.head?_append_of_ne_nil _ Nat.toDigits_ne_nil]
      exact ih (n / 10) (by omega) (by omega)

theorem isDigit_zero_of_mem (h : c ∈ List.replicate k '0') : c.isDigit := by
  obtain rfl := List.eq_of_mem_replicate h
  rfl

def Numeral.ofDecimal (d : Decimal) : Numeral :=
  let digits := toDigits 10 d.digits
  let lead := d.exponent + digits.length - 1
  if -5 ≤ lead ∧ lead ≤ 15 then
    if 0 ≤ d.exponent then ⟨digits ++ List.replicate d.exponent.toNat '0', ['0'], none⟩
    else if 0 ≤ lead then ⟨digits.take (lead.toNat + 1), digits.drop (lead.toNat + 1), none⟩
    else ⟨['0'], List.replicate (-lead - 1).toNat '0' ++ digits, none⟩
  else ⟨digits.take 1, digits.drop 1, some lead⟩

theorem Layout.chars_document (d : Decimal) : document.chars d = (Numeral.ofDecimal d).chars := by
  have hlength : 0 < (toDigits 10 d.digits).length := Nat.length_toDigits_pos
  unfold chars Numeral.ofDecimal
  dsimp only [digitsOf]
  generalize hlead : d.exponent + ((toDigits 10 d.digits).length : Int) - 1 = lead
  by_cases hpositional : -5 ≤ lead ∧ lead ≤ 15
  · have hdocument : document.positional lead := by simp [document, hpositional]
    rw [if_pos hdocument, if_pos hpositional]
    by_cases hwhole : 0 ≤ d.exponent
    · rw [if_pos hwhole, if_pos hwhole]
      simp [Numeral.chars, document]
    · rw [if_neg hwhole, if_neg hwhole]
      by_cases hpoint : 0 ≤ lead
      · have hfraction : lead.toNat + 1 < (toDigits 10 d.digits).length := by omega
        rw [if_pos hpoint, if_pos hpoint]
        simp [Numeral.chars, List.drop_eq_nil_iff, hfraction]
      · rw [if_neg hpoint, if_neg hpoint]
        simp [Numeral.chars, Nat.toDigits_ne_nil]
  · have hdocument : ¬document.positional lead := by
      simpa [document] using hpositional
    rw [if_neg hdocument, if_neg hpositional]
    cases hdigits : toDigits 10 d.digits with
    | nil => simp [hdigits] at hlength
    | cons first rest =>
      cases rest with
      | nil => simp [Numeral.chars]
      | cons second rest => simp [Numeral.chars]

theorem Numeral.valid_ofDecimal (hzero : d.digits = 0 → d.exponent = 0) : (ofDecimal d).Valid := by
  have hdigit : ∀ c ∈ toDigits 10 d.digits, c.isDigit := fun c => isDigit_of_mem_toDigits
  have hlength : 0 < (toDigits 10 d.digits).length := Nat.length_toDigits_pos
  unfold ofDecimal
  dsimp only
  split_ifs with hpositional hwhole hpoint
  · refine ⟨by simp [Nat.toDigits_ne_nil], ?_, by simp, ?_⟩
    · intro c hc
      exact (List.mem_append.mp hc).elim (hdigit c) isDigit_zero_of_mem
    · by_cases hd : d.digits = 0
      · exact .inl (by simp [hd, hzero hd])
      · refine .inr ?_
        rw [List.head?_append_of_ne_nil _ Nat.toDigits_ne_nil]
        exact head?_toDigits hd
  · have hd : d.digits ≠ 0 := fun hd => hwhole (hzero hd).ge
    refine ⟨by simp [Nat.toDigits_ne_nil], fun c hc => hdigit c (List.mem_of_mem_take hc),
      fun c hc => hdigit c (List.mem_of_mem_drop hc), .inr ?_⟩
    rw [List.head?_take, if_neg (Nat.succ_ne_zero _)]
    exact head?_toDigits hd
  · refine ⟨by simp, by simp, ?_, .inl rfl⟩
    intro c hc
    exact (List.mem_append.mp hc).elim isDigit_zero_of_mem (hdigit c)
  · refine ⟨by simp [Nat.toDigits_ne_nil], fun c hc => hdigit c (List.mem_of_mem_take hc),
      fun c hc => hdigit c (List.mem_of_mem_drop hc), .inl ?_⟩
    rw [List.length_take]
    omega

/-- A numeral has the digits and the power of ten of its decimal, except that a whole number gets a
zero as its fraction. -/
theorem Numeral.value_ofDecimal (d : Decimal) :
    (ofDecimal d).significand = d.digits ∧ (ofDecimal d).shift = d.exponent ∨
      (ofDecimal d).significand < 2 ^ 64 ∧ (ofDecimal d).shift = -1 := by
  have hvalue : Nat.ofDigitChars 10 (toDigits 10 d.digits) 0 = d.digits :=
    Nat.ofDigitChars_ten_toDigits
  have hlength : 0 < (toDigits 10 d.digits).length := Nat.length_toDigits_pos
  have hpow : d.digits < 10 ^ (toDigits 10 d.digits).length :=
    (Nat.length_toDigits_le_iff (by decide) hlength).mp le_rfl
  unfold ofDecimal significand shift
  dsimp only
  split_ifs with hpositional hwhole hpoint
  · refine .inr ⟨?_, rfl⟩
    rw [Nat.ofDigitChars_append, Nat.ofDigitChars_append, hvalue, Nat.ofDigitChars_replicate_zero]
    have hsmall : 10 ^ d.exponent.toNat * d.digits < 10 ^ 16 := by
      calc 10 ^ d.exponent.toNat * d.digits
          < 10 ^ d.exponent.toNat * 10 ^ (toDigits 10 d.digits).length :=
            Nat.mul_lt_mul_of_pos_left hpow (Nat.pow_pos (by decide))
        _ = 10 ^ (d.exponent.toNat + (toDigits 10 d.digits).length) := (Nat.pow_add _ _ _).symm
        _ ≤ 10 ^ 16 := Nat.pow_le_pow_right (by decide) (by omega)
    simp only [Nat.ofDigitChars_cons, Nat.ofDigitChars_nil]
    omega
  · refine .inl ⟨by rw [List.take_append_drop, hvalue], ?_⟩
    simp only [List.length_drop, Option.getD_none]
    omega
  · refine .inl ⟨?_, ?_⟩
    · rw [Nat.ofDigitChars_append, Nat.ofDigitChars_append, Nat.ofDigitChars_replicate_zero]
      simpa [Nat.ofDigitChars] using hvalue
    · simp only [List.length_append, List.length_replicate, Option.getD_none]
      omega
  · refine .inl ⟨by rw [List.take_append_drop, hvalue], ?_⟩
    simp only [List.length_drop, Option.getD_some]
    omega

theorem Numeral.not_integral_ofDecimal (d : Decimal) :
    ¬((ofDecimal d).fraction = [] ∧ (ofDecimal d).power = none) := by
  have hlength : 0 < (toDigits 10 d.digits).length := Nat.length_toDigits_pos
  unfold ofDecimal
  dsimp only
  split_ifs with hpositional hwhole hpoint
  · simp
  · simp
    omega
  · simp [Nat.toDigits_ne_nil]
  · simp

theorem Numeral.spec_ofFloat (hx : x.isFinite) :
    let n := ofDecimal (ofFloat x).shortest
    n.Valid ∧ n.significand < 2 ^ 64 ∧ HasFloat n.significand n.shift := by
  have hfloat := hasFloat_shortest hx
  have hdigits : (ofFloat x).shortest.digits < 2 ^ 64 ∧
      ((ofFloat x).shortest.digits = 0 → (ofFloat x).shortest.exponent = 0) := by
    by_cases hzero : (ofFloat x).mantissa = 0
    · rw [shortest, if_pos hzero]
      exact ⟨by decide, fun _ => rfl⟩
    · obtain ⟨hpos, hle, -⟩ := shortest_spec (fits_ofFloat hx hzero)
      exact ⟨hle.trans_lt (by decide), fun h => absurd h hpos.ne'⟩
  generalize (ofFloat x).shortest = d at hfloat hdigits
  refine ⟨valid_ofDecimal hdigits.2, ?_⟩
  obtain ⟨hsignificand, hshift⟩ | ⟨hsignificand, hshift⟩ := value_ofDecimal d
  · rw [hsignificand, hshift]
    exact ⟨hdigits.1, hfloat⟩
  · refine ⟨hsignificand, ?_⟩
    rw [hshift]
    exact hasFloat_of_lt hsignificand fun h => absurd h (by decide)

end Decimal

end AgentChain
