import AgentChain.Decimal.Reading
import Mathlib

/-!
# Rounding to the floats of sixty-four bits

The floats are a mantissa below `2 ^ 53` times a power of two from `2 ^ -1074` to `2 ^ 971`. A
product or a quotient is rounded to the nearest of them by dropping bits of its exact mantissa. This
module says when the outcome is finite, and how far above the exact value it can be.
-/

namespace AgentChain.Binary64

open Float.Model Float.Model.UnpackedFloat

/-! ### Dropping bits -/

theorem mantissa_shiftRight (em : ExtendedMantissa) (n : Nat) :
    (em >>> n).mantissa = em.mantissa / 2 ^ n := by
  induction n with
  | zero => exact (Nat.div_one _).symm
  | succ n ih =>
    change (em >>> n).mantissa / 2 = _
    rw [ih, Nat.div_div_eq_div_mul, Nat.pow_succ]

theorem roundBit_shiftRight_succ (em : ExtendedMantissa) (n : Nat) :
    (em >>> (n + 1)).roundBit = (em.mantissa / 2 ^ n % 2 != 0) := by
  change ((em >>> n).mantissa % 2 != 0) = _
  rw [mantissa_shiftRight]

theorem mantissa_ofMantissaAndAccuracy (m : Nat) (a : Accuracy) :
    (ExtendedMantissa.ofMantissaAndAccuracy m a).mantissa = m := by
  rcases a with _ | (_ | _ | _) <;> rfl

/-- Rounding gives the mantissa or the next number, and the next one only if the round bit is set.
-/
theorem roundedMantissa_cases (em : ExtendedMantissa) :
    em.roundedMantissa = em.mantissa ∨ (em.roundedMantissa = em.mantissa + 1 ∧ em.roundBit) := by
  obtain ⟨m, _ | _, _ | _⟩ := em
  · exact .inl rfl
  · exact .inl rfl
  · rcases Nat.mod_two_eq_zero_or_one m with h | h
    · exact .inl (congrArg (m + ·) h)
    · exact .inr ⟨congrArg (m + ·) h, rfl⟩
  · exact .inr ⟨rfl, rfl⟩

/-- How many bits of a mantissa do not fit: fifty-three remain, and fewer near zero. -/
def dropped (m : Nat) (e : Int) : Nat :=
  (max ((Nat.log2 m : Int) + 1 + e - 53) (-1074) - e).toNat

def rounded (m : Nat) (e : Int) (a : Accuracy) : Nat :=
  (ExtendedMantissa.ofMantissaAndAccuracy m a >>> dropped m e).roundedMantissa

theorem shiftToTargetExponent_eq (m : Nat) (e : Int) (a : Accuracy) :
    shiftToTargetExponent .binary64 m e a =
      (ExtendedMantissa.ofMantissaAndAccuracy m a >>> dropped m e, e + dropped m e) :=
  rfl

theorem div_two_pow_dropped_lt (m : Nat) (e : Int) : m / 2 ^ dropped m e < 2 ^ 53 := by
  have hbits : m.log2 + 1 ≤ 53 + dropped m e := by
    unfold dropped
    omega
  rw [Nat.div_lt_iff_lt_mul (Nat.two_pow_pos _), ← Nat.pow_add]
  exact Nat.lt_log2_self.trans_le (Nat.pow_le_pow_right Nat.two_pos hbits)

theorem rounded_cases (m : Nat) (e : Int) (a : Accuracy) :
    rounded m e a = m / 2 ^ dropped m e ∨ rounded m e a = m / 2 ^ dropped m e + 1 := by
  have hcases := roundedMantissa_cases (ExtendedMantissa.ofMantissaAndAccuracy m a >>> dropped m e)
  rw [mantissa_shiftRight, mantissa_ofMantissaAndAccuracy] at hcases
  exact hcases.imp_right And.left

theorem rounded_le (m : Nat) (e : Int) (a : Accuracy) : rounded m e a ≤ 2 ^ 53 := by
  have := div_two_pow_dropped_lt m e
  have := rounded_cases m e a
  omega

theorem two_mul_rounded_exact_le (m : Nat) (e : Int) :
    2 * (rounded m e .exact * 2 ^ dropped m e) ≤ 2 * m + 2 ^ dropped m e := by
  have hdiv := Nat.div_add_mod m (2 ^ dropped m e)
  have hcases := roundedMantissa_cases
    (ExtendedMantissa.ofMantissaAndAccuracy m .exact >>> dropped m e)
  rw [mantissa_shiftRight, mantissa_ofMantissaAndAccuracy] at hcases
  obtain hdown | ⟨hup, hbit⟩ := hcases
  · rw [rounded, hdown, Nat.mul_comm (m / _)]
    omega
  · cases hn : dropped m e with
    | zero =>
      rw [hn] at hbit
      cases hbit
    | succ n =>
      rw [hn, roundBit_shiftRight_succ, mantissa_ofMantissaAndAccuracy] at hbit
      have hodd : m / 2 ^ n % 2 = 1 := by simpa using hbit
      have hmod : m % 2 ^ (n + 1) = m % 2 ^ n + 2 ^ n * (m / 2 ^ n % 2) := by
        rw [Nat.pow_succ, Nat.mod_mul]
      rw [rounded, hup, hn, Nat.add_mul, Nat.mul_comm (m / _)]
      rw [hn] at hdiv
      rw [hodd, Nat.mul_one] at hmod
      have hpow : 2 ^ (n + 1) = 2 * 2 ^ n := by rw [Nat.pow_succ, Nat.mul_comm]
      omega

/-! ### Rounding -/

theorem log2_le_of_lt (h : m < 2 ^ (k + 1)) : m.log2 ≤ k := by
  rcases Nat.eq_zero_or_pos m with rfl | hm
  · simp
  · exact Nat.lt_succ_iff.mp ((Nat.log2_lt hm.ne').mpr h)

variable {m : Nat} {e : Int} {b : BitVec Format.binary64.numBits} {x : Float}

theorem dropped_eq_zero (hm : m < 2 ^ 53) (he : -1074 ≤ e) : dropped m e = 0 := by
  have := log2_le_of_lt hm
  unfold dropped
  omega

theorem le_add_dropped (m : Nat) (e : Int) : -1074 ≤ e + dropped m e := by
  unfold dropped
  omega

/-- What rounding gives after the bits are dropped, where a mantissa may have one bit too many. -/
theorem roundWithAccuracy_eq (s : Sign) (m : Nat) (e : Int) (a : Accuracy) :
    roundWithAccuracy .binary64 s m e a =
      let r := rounded m e a
      let e' := e + dropped m e
      if h : r / 2 ^ dropped r e' = 0 then .zero s
      else .finite s (r / 2 ^ dropped r e') (e' + dropped r e') (Nat.pos_of_ne_zero h) := by
  simp only [roundWithAccuracy, shiftToTargetExponent_eq, mantissa_shiftRight,
    mantissa_ofMantissaAndAccuracy]
  rfl

theorem roundWithAccuracy_cases (s : Sign) (m : Nat) (e : Int) (a : Accuracy) :
    (rounded m e a = 0 ∧ roundWithAccuracy .binary64 s m e a = .zero s) ∨
    (rounded m e a < 2 ^ 53 ∧ ∃ h, roundWithAccuracy .binary64 s m e a =
      .finite s (rounded m e a) (e + dropped m e) h) ∨
    (rounded m e a = 2 ^ 53 ∧ ∃ h, roundWithAccuracy .binary64 s m e a =
      .finite s (2 ^ 52) (e + dropped m e + 1) h) := by
  have he := le_add_dropped m e
  rw [roundWithAccuracy_eq]
  dsimp only
  generalize e + dropped m e = e' at he ⊢
  obtain hlt | hmax := (rounded_le m e a).lt_or_eq
  · generalize rounded m e a = r at hlt ⊢
    simp only [dropped_eq_zero hlt he, Nat.pow_zero, Nat.div_one]
    rcases Nat.eq_zero_or_pos r with rfl | hr
    · exact .inl ⟨rfl, rfl⟩
    · exact .inr (.inl ⟨hlt, hr, by simp [hr.ne']⟩)
  · have hone : dropped (2 ^ 53) e' = 1 := by
      unfold dropped
      rw [Nat.log2_two_pow]
      omega
    refine .inr (.inr ⟨hmax, by decide, ?_⟩)
    rw [hmax]
    simp only [hone]
    rfl

/-! ### Packing -/

/-- A float with all its fifty-three bits. -/
structure Normal (f : UnpackedFloat) (m : Nat) (e : Int) : Prop where
  eq_finite : ∃ s h, f = .finite s m e h
  two_pow_le : 2 ^ 52 ≤ m
  lt_two_pow : m < 2 ^ 53
  le_exponent : -1074 ≤ e
  exponent_le : e ≤ 971

theorem Normal.isFinite (h : Normal x.toModel.unpack m e) : x.isFinite := by
  obtain ⟨s, hm, hx⟩ := h.eq_finite
  change x.toModel.unpack.isFinite
  rw [hx]
  rfl

theorem isInf_eq_false (h : x.isFinite) : x.isInf = false := by
  change x.toModel.unpack.isFinite = true at h
  change x.toModel.unpack.isInf = false
  cases hx : x.toModel.unpack with
  | notANumber | zero | finite => rfl
  | infinity => simp [hx, UnpackedFloat.isFinite] at h

theorem unpack_pack (f : UnpackedFloat) :
    (Float.Model.pack f).unpack = UnpackedFloat.unpack .binary64 (UnpackedFloat.pack .binary64 f) :=
  rfl

theorem isFinite_unpack (h : unpackExponent b ≠ -1#_) :
    (UnpackedFloat.unpack .binary64 b).isFinite := by
  unfold UnpackedFloat.unpack
  simp only [h, if_false]
  split_ifs <;> rfl

theorem exponentField_ne (he : e ≤ 971) :
    BitVec.ofNat 11 (e + (1023 : Nat) + (52 : Nat)).toNat ≠ -1#11 := by
  intro h
  have := congrArg BitVec.toNat h
  simp only [BitVec.toNat_ofNat] at this
  have hlast : (-1#11).toNat = 2047 := rfl
  omega

theorem isFinite_pack_finite (h : 0 < m) (he : e ≤ 971) :
    (Float.Model.pack (.finite s m e h)).isFinite := by
  refine isFinite_unpack (b := UnpackedFloat.pack .binary64 (.finite s m e h)) ?_
  simp only [UnpackedFloat.pack]
  split_ifs with hover hnormal
  · exfalso
    change 2 ^ 11 ≤ (e + (1023 : Nat) + (52 : Nat)).toNat + 1 at hover
    omega
  · rw [unpackExponent_packComponents]
    exact exponentField_ne he
  · rw [unpackExponent_packComponents]
    decide

theorem isFinite_pack_zero (s : Sign) : (Float.Model.pack (.zero s)).isFinite := by
  cases s <;> decide

theorem toNat_one_append (hlow : 2 ^ 52 ≤ m) (hhigh : m < 2 ^ 53) :
    (1#1 ++ BitVec.ofNat 52 m).toNat = m := by
  rw [BitVec.toNat_append, ← Nat.shiftLeft_add_eq_or_of_lt (BitVec.isLt _)]
  change 2 ^ 52 + m % 2 ^ 52 = m
  omega

theorem normal_unpack_pack (h : 0 < m) (hlow : 2 ^ 52 ≤ m)
    (hhigh : m < 2 ^ 53) (hmin : -1074 ≤ e) (hmax : e ≤ 971) :
    Normal (Float.Model.pack (.finite s m e h)).unpack m e := by
  refine ⟨?_, hlow, hhigh, hmin, hmax⟩
  have hlog : m.log2 + 1 = Format.binary64.mantissaBits := by
    rw [(Nat.log2_eq_iff h.ne').mpr ⟨hlow, hhigh⟩]
    rfl
  have hpack : UnpackedFloat.pack .binary64 (.finite s m e h) =
      packComponents .binary64 s (BitVec.ofNat 11 (e + (1023 : Nat) + (52 : Nat)).toNat)
        (BitVec.ofNat 52 m) := by
    simp only [UnpackedFloat.pack]
    rw [if_neg, if_pos hlog]
    · rfl
    · change ¬2 ^ 11 ≤ (e + (1023 : Nat) + (52 : Nat)).toNat + 1
      omega
  have hzero : BitVec.ofNat 11 (e + (1023 : Nat) + (52 : Nat)).toNat ≠ 0#11 := by
    intro hfield
    have := congrArg BitVec.toNat hfield
    simp only [BitVec.toNat_ofNat] at this
    omega
  rw [unpack_pack, hpack]
  simp only [UnpackedFloat.unpack, unpackExponent_packComponents, unpackMantissa_packComponents,
    if_neg (exponentField_ne hmax), if_neg hzero, toNat_one_append hlow hhigh]
  have hexponent : ((BitVec.ofNat 11 (e + (1023 : Nat) + (52 : Nat)).toNat).toNat : Int) -
      ((Format.binary64.exponentBias : Nat) + (52 : Nat)) = e := by
    change _ - (((1023 : Nat) : Int) + (52 : Nat)) = e
    rw [BitVec.toNat_ofNat]
    omega
  simp only [hexponent]
  exact ⟨_, h, rfl⟩

/-! ### Exact values within the range -/

/-- The least value that is rounded to an infinity. -/
def limit : ℚ :=
  (2 ^ 54 - 1) * 2 ^ 970

def value (m : Nat) (e : Int) : ℚ :=
  m * 2 ^ e

theorem value_mul_two_pow (m n : Nat) (e : Int) : value (m * 2 ^ n) e = value m (e + n) := by
  simp only [value, zpow_add₀ (two_ne_zero' ℚ), zpow_natCast]
  push_cast
  ring

theorem two_zpow_log2_le (hm : m ≠ 0) (e : Int) : (2 : ℚ) ^ ((m.log2 : Int) + e) ≤ value m e := by
  have hpow : (2 ^ m.log2 : ℚ) ≤ m := by exact_mod_cast Nat.log2_self_le hm
  rw [value, zpow_add₀ two_ne_zero, zpow_natCast]
  gcongr

theorem limit_lt : limit < 2 ^ 1024 := by
  have hpow : (2 : ℚ) ^ 1024 = 2 ^ 54 * 2 ^ 970 := by rw [← pow_add]
  rw [limit, hpow]
  gcongr
  exact sub_lt_self _ one_pos

theorem natCast_lt_limit {n : Nat} (h : n < (2 ^ 54 - 1) * 2 ^ 970) : (n : ℚ) < limit := by
  have hcast : (n : ℚ) < (((2 ^ 54 - 1) * 2 ^ 970 : Nat) : ℚ) := Nat.cast_lt.mpr h
  refine hcast.trans_eq ?_
  rw [limit, Nat.cast_mul, Nat.cast_pow]
  norm_num only

theorem log2_add_le_of_lt_limit (hm : m ≠ 0) (h : value m e < limit) :
    (m.log2 : Int) + e ≤ 1023 := by
  have hlt : (2 : ℚ) ^ ((m.log2 : Int) + e) < 2 ^ (1024 : Int) :=
    (two_zpow_log2_le hm e).trans_lt (h.trans limit_lt)
  have := (zpow_lt_zpow_iff_right₀ one_lt_two).mp hlt
  omega

theorem value_rounded_le (hbits : 52 ≤ m.log2) (hlow : -1074 ≤ (m.log2 : Int) - 52 + e) :
    value (rounded m e .exact) (e + dropped m e) ≤ value m e * (1 + 2 ^ (-53 : Int)) ∧
      value (rounded m e .exact) (e + dropped m e) ≤ value m e + 2 ^ (e + dropped m e - 1) := by
  have hm : m ≠ 0 := by
    rintro rfl
    simp at hbits
  have hn : dropped m e = m.log2 - 52 := by
    unfold dropped
    omega
  have hhalf := two_mul_rounded_exact_le m e
  have hunit : 2 ^ dropped m e * 2 ^ 52 ≤ m := by
    rw [← Nat.pow_add, hn, Nat.sub_add_cancel hbits]
    exact Nat.log2_self_le hm
  generalize dropped m e = n at hhalf hunit ⊢
  generalize rounded m e .exact = r at hhalf ⊢
  have hhalf' : 2 * ((r : ℚ) * 2 ^ n) ≤ 2 * m + 2 ^ n := by exact_mod_cast hhalf
  have hunit' : (2 : ℚ) ^ n * 2 ^ 52 ≤ m := by exact_mod_cast hunit
  have hpos : (0 : ℚ) < 2 ^ e := by positivity
  have hone : (2 : ℚ) ^ (e + n - 1) = 2 ^ n / 2 * 2 ^ e := by
    rw [zpow_sub_one₀ two_ne_zero, zpow_add₀ two_ne_zero, zpow_natCast]
    ring
  have hup : value r (e + n) ≤ value m e + 2 ^ (e + n - 1) := by
    rw [← value_mul_two_pow, hone, value, value, ← add_mul]
    gcongr
    push_cast
    linarith
  refine ⟨hup.trans ?_, hup⟩
  have hpart : (2 : ℚ) ^ n / 2 ≤ m * 2 ^ (-53 : Int) := by
    rw [zpow_neg, ← div_eq_mul_inv, le_div_iff₀ (by positivity)]
    norm_num
    norm_num at hunit'
    linarith
  rw [hone, value, mul_add, mul_one, mul_right_comm]
  gcongr

theorem value_two_pow_succ (k : Nat) : value (2 ^ 53) (k + 1) = (2 ^ 54 - 1) * 2 ^ k + 2 ^ k := by
  rw [value, zpow_add_one₀ two_ne_zero, zpow_natCast]
  push_cast
  ring

/-- An exact value within the range is rounded to a normal float, at most by the part `2 ^ -53` of
it upwards. -/
theorem exists_normal_round (s : Sign) (hbits : 52 ≤ m.log2)
    (hlow : -1074 ≤ (m.log2 : Int) - 52 + e) (hhigh : value m e < limit) :
    ∃ m' e', Normal (Float.Model.pack (roundWithAccuracy .binary64 s m e .exact)).unpack m' e' ∧
      (m.log2 : Int) - 52 + e ≤ e' ∧ value m' e' ≤ value m e * (1 + 2 ^ (-53 : Int)) := by
  have hm : m ≠ 0 := by
    rintro rfl
    simp at hbits
  have hn : dropped m e = m.log2 - 52 := by
    unfold dropped
    omega
  have htop := log2_add_le_of_lt_limit hm hhigh
  have hleast : 2 ^ 52 ≤ rounded m e .exact := by
    have hfloor : 2 ^ 52 ≤ m / 2 ^ dropped m e := by
      rw [Nat.le_div_iff_mul_le (Nat.two_pow_pos _), ← Nat.pow_add, hn, Nat.add_sub_cancel' hbits]
      exact Nat.log2_self_le hm
    have := rounded_cases m e .exact
    omega
  obtain ⟨hrelative, habsolute⟩ := value_rounded_le hbits hlow
  obtain ⟨hzero, -⟩ | ⟨hlt, hpos, hround⟩ | ⟨hmax, hpos, hround⟩ :=
    roundWithAccuracy_cases s m e .exact
  · omega
  · refine ⟨_, _, hround ▸ normal_unpack_pack hpos hleast hlt ?_ ?_, ?_, hrelative⟩ <;> omega
  · have hroom : e + dropped m e ≠ 971 := by
      intro hlast
      rw [hmax, hlast] at habsolute
      have hfull : limit + 2 ^ (971 - 1 : Int) = value (2 ^ 53) 971 := (value_two_pow_succ 970).symm
      exact absurd hhigh (not_lt.mpr (le_of_add_le_add_right (hfull.trans_le habsolute)))
    refine ⟨2 ^ 52, e + dropped m e + 1,
      hround ▸ normal_unpack_pack hpos le_rfl (by decide) (by omega) (by omega), by omega, ?_⟩
    refine le_of_eq_of_le ?_ hrelative
    rw [hmax]
    exact (value_mul_two_pow (2 ^ 52) 1 _).symm

/-! ### Floats of natural numbers -/

theorem log2_mul_two_pow (hm : m ≠ 0) (k : Nat) : (m * 2 ^ k).log2 = m.log2 + k := by
  have hk : 0 < 2 ^ k := Nat.two_pow_pos k
  rw [Nat.log2_eq_iff (Nat.mul_ne_zero hm hk.ne'), Nat.add_right_comm, Nat.pow_add, Nat.pow_add]
  exact ⟨Nat.mul_le_mul_right _ (Nat.log2_self_le hm),
    Nat.mul_lt_mul_of_pos_right Nat.lt_log2_self hk⟩

theorem round_eq (s : Sign) (m : Nat) (e : Int) :
    UnpackedFloat.round .binary64 s m e =
      roundWithAccuracy .binary64 s
        (m * 2 ^ (e - max ((Nat.log2 m : Int) + 1 + e - 53) (-1074)).toNat)
        (e - (e - max ((Nat.log2 m : Int) + 1 + e - 53) (-1074)).toNat) .exact := by
  rw [← Nat.shiftLeft_eq]
  rfl

theorem unpack_toFloat {n : UInt64} (hn : n.toNat ≠ 0) :
    n.toFloat.toModel.unpack =
      (Float.Model.pack (UnpackedFloat.round .binary64 .positive n.toNat 0)).unpack := by
  have hgt : compare (n.toNat : Int) 0 = .gt := by
    rw [compare_gt_iff_gt]
    omega
  change (Float.Model.pack (UnpackedFloat.normalize .binary64 (n.toNat : Int) 0 .positive)).unpack = _
  rw [UnpackedFloat.normalize, hgt]
  rfl

theorem exists_normal_toFloat {n : UInt64} (hn : n.toNat ≠ 0) :
    ∃ m e, Normal n.toFloat.toModel.unpack m e ∧ -52 ≤ e ∧
      value m e ≤ n.toNat * (1 + 2 ^ (-53 : Int)) := by
  rw [unpack_toFloat hn, round_eq]
  generalize hk : ((0 : Int) - max ((Nat.log2 n.toNat : Int) + 1 + 0 - 53) (-1074)).toNat = k
  have hlog := log2_mul_two_pow hn k
  have hexact : value (n.toNat * 2 ^ k) (0 - k) = n.toNat := by
    rw [value_mul_two_pow, sub_add_cancel, value, zpow_zero, mul_one]
  have hsmall : value (n.toNat * 2 ^ k) (0 - k) < limit := by
    rw [hexact]
    exact natCast_lt_limit (n.toNat_lt.trans (by decide +kernel))
  obtain ⟨m, e, hnormal, hexponent, hvalue⟩ := exists_normal_round .positive
    (by rw [hlog]; omega) (by rw [hlog]; omega) hsmall
  refine ⟨m, e, hnormal, by rw [hlog] at hexponent; omega, ?_⟩
  rwa [hexact] at hvalue

/-! ### Powers of ten -/

/-- What is said of the float of a power of ten that is small enough to be exact. -/
def isExactTen (q : Nat) : Bool :=
  match (Decimal.tenTo q).toModel.unpack with
  | .finite _ m e _ =>
    decide (2 ^ 52 ≤ m ∧ m < 2 ^ 53 ∧ (Nat.log2 (10 ^ q) : Int) - 52 ≤ e ∧ e ≤ 971 ∧
      m * 2 ^ (e + 52).toNat = 10 ^ q * 2 ^ 52)
  | _ => false

theorem isExactTen_of_le (q : Nat) (hq : q ≤ 22) : isExactTen q := by
  have hall : ∀ q : Fin 23, isExactTen q.val := by decide +kernel
  exact hall ⟨q, by omega⟩

theorem unpack_tenTo (hlow : 22 < q) (hhigh : q ≤ 308) :
    (Decimal.tenTo q).toModel.unpack =
      (Float.Model.pack (roundWithAccuracy .binary64 (.positive * .positive)
        (1 <<< 53 * 10 ^ q) (-53 + 0) .exact)).unpack := by
  have hslow : ¬((1 : Nat) < 2 ^ 53 ∧ q ≤ 22) := by omega
  rw [Decimal.tenTo, Float.ofScientific, dif_neg hslow]
  change (Float.Model.pack (UnpackedFloat.ofScientific .binary64 1 (q : Int))).unpack = _
  rw [UnpackedFloat.ofScientific, dif_neg one_ne_zero, if_neg, if_neg,
    if_pos (Int.natCast_nonneg q)]
  · rfl
  · change ¬(q : Int) < -(2048 + _)
    omega
  · change ¬(q : Int) > 2048
    omega

theorem exists_normal_tenTo {q : Nat} (hq : q ≤ 308) :
    ∃ m e, Normal (Decimal.tenTo q).toModel.unpack m e ∧
      (Nat.log2 (10 ^ q) : Int) - 52 ≤ e ∧ value m e ≤ 10 ^ q * (1 + 2 ^ (-53 : Int)) := by
  by_cases hsmall : q ≤ 22
  · have hexact := isExactTen_of_le q hsmall
    unfold isExactTen at hexact
    split at hexact
    · rename_i s m e hm hunpack
      simp only [decide_eq_true_eq] at hexact
      obtain ⟨hlow, hhigh, hleast, hmost, hvalue⟩ := hexact
      refine ⟨m, e, ⟨⟨s, hm, hunpack⟩, hlow, hhigh, by omega, hmost⟩, hleast, ?_⟩
      have hexponent : ((e + 52).toNat : Int) - 52 = e := by omega
      have hten : value m e = 10 ^ q := by
        rw [← hexponent, sub_eq_neg_add, ← value_mul_two_pow, hvalue, value_mul_two_pow]
        norm_num [value]
      rw [hten]
      exact le_mul_of_one_le_right (by positivity) (le_add_of_nonneg_right (by positivity))
    · cases hexact
  · have hpos : 10 ^ q ≠ 0 := (Nat.pow_pos (by decide)).ne'
    have hshift : 1 <<< 53 * 10 ^ q = 10 ^ q * 2 ^ 53 := Nat.mul_comm _ _
    have hlog := log2_mul_two_pow hpos 53
    have hten : value (10 ^ q * 2 ^ 53) (-53 + 0) = (10 ^ q : Nat) := by
      rw [value_mul_two_pow]
      simp [value]
    have hlimit : value (10 ^ q * 2 ^ 53) (-53 + 0) < limit := by
      rw [hten]
      exact natCast_lt_limit ((Nat.pow_le_pow_right (by decide) hq).trans_lt (by decide +kernel))
    rw [unpack_tenTo (by omega) hq, hshift]
    obtain ⟨m, e, hnormal, hexponent, hvalue⟩ := exists_normal_round (.positive * .positive)
      (by rw [hlog]; omega) (by rw [hlog]; omega) hlimit
    refine ⟨m, e, hnormal, by rw [hlog] at hexponent; omega, ?_⟩
    rw [hten] at hvalue
    exact_mod_cast hvalue

/-! ### Products and quotients -/

theorem isFinite_mul (hx : Normal x.toModel.unpack m₁ e₁)
    (hy : Normal y.toModel.unpack m₂ e₂) (hlow : -1000 ≤ e₁ + e₂)
    (hhigh : value m₁ e₁ * value m₂ e₂ < limit) : (x * y).isFinite := by
  obtain ⟨s₁, h₁, hx'⟩ := hx.eq_finite
  obtain ⟨s₂, h₂, hy'⟩ := hy.eq_finite
  have hproduct : value (m₁ * m₂) (e₁ + e₂) = value m₁ e₁ * value m₂ e₂ := by
    simp only [value, zpow_add₀ (two_ne_zero' ℚ)]
    push_cast
    ring
  have hbits : 104 ≤ (m₁ * m₂).log2 := by
    rw [Nat.le_log2 (Nat.mul_pos h₁ h₂).ne']
    calc 2 ^ 104 = 2 ^ 52 * 2 ^ 52 := rfl
      _ ≤ m₁ * m₂ := Nat.mul_le_mul hx.two_pow_le hy.two_pow_le
  obtain ⟨m, e, hnormal, -, -⟩ := exists_normal_round (s₁ * s₂) (by omega) (by omega)
    (hproduct.trans_lt hhigh)
  refine Normal.isFinite (m := m) (e := e) ?_
  change Normal (Float.Model.pack (mul .binary64 x.toModel.unpack y.toModel.unpack)).unpack m e
  rw [hx', hy']
  exact hnormal

theorem isFinite_zero_mul (hy : Normal y.toModel.unpack m e) :
    ((0 : UInt64).toFloat * y).isFinite := by
  obtain ⟨s, h, hy'⟩ := hy.eq_finite
  change (Float.Model.pack (mul .binary64 (0 : UInt64).toFloat.toModel.unpack
    y.toModel.unpack)).isFinite
  rw [hy', show (0 : UInt64).toFloat.toModel.unpack = .zero .positive from rfl]
  exact isFinite_pack_zero _

theorem isFinite_pack_round (s : Sign) (a : Accuracy) (he : e ≤ 970)
    (hm : (m.log2 : Int) + e ≤ 1022) :
    (Float.Model.pack (roundWithAccuracy .binary64 s m e a)).isFinite := by
  have hend : e + dropped m e ≤ 970 := by
    unfold dropped
    omega
  obtain ⟨-, h⟩ | ⟨-, hpos, h⟩ | ⟨-, hpos, h⟩ := roundWithAccuracy_cases s m e a
  · rw [h]
    exact isFinite_pack_zero s
  · rw [h]
    exact isFinite_pack_finite hpos (by omega)
  · rw [h]
    exact isFinite_pack_finite hpos (by omega)

theorem unpack_bounds (hb : UnpackedFloat.unpack .binary64 b = .finite s m e h) :
    m < 2 ^ 53 ∧ e ≤ 971 := by
  have hmantissa := (unpackMantissa b).isLt
  have himplicit := (1#1 ++ unpackMantissa b).isLt
  have hfield := (unpackExponent b).isLt
  unfold UnpackedFloat.unpack at hb
  dsimp only at hb
  split_ifs at hb with hlast hinfinite hzero hfraction
  · cases hb
    rw [hzero]
    exact ⟨hmantissa.trans (by decide), by decide⟩
  · cases hb
    refine ⟨himplicit, ?_⟩
    have hne : (unpackExponent b).toNat ≠ 2047 := fun h => hlast (BitVec.eq_of_toNat_eq h)
    change ((unpackExponent b).toNat : Int) - (((1023 : Nat) : Int) + (52 : Nat)) ≤ 971
    change (unpackExponent b).toNat < 2048 at hfield
    omega

theorem log2_div_add_le {a b} (hb : b ≠ 0) (hq : a / b ≠ 0) : (a / b).log2 + b.log2 ≤ a.log2 := by
  have ha : a ≠ 0 := by
    rintro rfl
    simp at hq
  rw [Nat.le_log2 ha, Nat.pow_add]
  exact (Nat.mul_le_mul (Nat.log2_self_le hq) (Nat.log2_self_le hb)).trans (Nat.div_mul_le_self a b)

theorem isFinite_div {x y : Float} (hx : x.isFinite)
    (hy : Normal y.toModel.unpack m e) (he : -51 ≤ e) : (x / y).isFinite := by
  obtain ⟨s₂, h₂, hy'⟩ := hy.eq_finite
  have hlog₂ : m.log2 = 52 := (Nat.log2_eq_iff h₂.ne').mpr ⟨hy.two_pow_le, hy.lt_two_pow⟩
  change x.toModel.unpack.isFinite = true at hx
  change (Float.Model.pack (div .binary64 x.toModel.unpack y.toModel.unpack)).isFinite
  rw [hy']
  cases hx' : x.toModel.unpack with
  | notANumber => simp [hx', UnpackedFloat.isFinite] at hx
  | infinity s => simp [hx', UnpackedFloat.isFinite] at hx
  | zero s => exact isFinite_pack_zero _
  | finite s₁ m₁ e₁ h₁ =>
    obtain ⟨hm₁, he₁⟩ := unpack_bounds hx'
    have hlog₁ := log2_le_of_lt hm₁
    change (Float.Model.pack (roundWithAccuracy .binary64 (s₁ / s₂) _ _ _)).isFinite
    simp only [Nat.shiftLeft_eq]
    have htarget : Format.binary64.targetExponent (totalExponent m₁ e₁ - totalExponent m e) =
        max ((m₁.log2 : Int) + 1 + e₁ - (m.log2 + 1 + e) - 53) (-1074) := rfl
    rw [htarget]
    generalize ht : min (e₁ - e)
      (max ((m₁.log2 : Int) + 1 + e₁ - (m.log2 + 1 + e) - 53) (-1074)) = t
    refine isFinite_pack_round _ _ (by omega) ?_
    generalize hk : (e₁ - e - t).toNat = k
    by_cases hq : m₁ * 2 ^ k / m = 0
    · rw [hq]
      simp
      omega
    · have := log2_div_add_le h₂.ne' hq
      rw [log2_mul_two_pow h₁.ne'] at this
      omega

theorem isFinite_neg (h : x.isFinite) : (-x).isFinite := by
  change x.toModel.unpack.isFinite = true at h
  change (Float.Model.pack x.toModel.unpack.neg).isFinite
  cases hx : x.toModel.unpack with
  | notANumber => simp [hx, UnpackedFloat.isFinite] at h
  | infinity s => simp [hx, UnpackedFloat.isFinite] at h
  | zero s => exact isFinite_pack_zero _
  | finite s m e hm => exact isFinite_pack_finite hm (unpack_bounds hx).2

theorem isFinite_toFloat (n : UInt64) : n.toFloat.isFinite := by
  by_cases hn : n.toNat = 0
  · obtain rfl : n = 0 := UInt64.toNat_inj.mp hn
    decide +kernel
  · obtain ⟨m, e, hnormal, -⟩ := exists_normal_toFloat hn
    exact hnormal.isFinite

end AgentChain.Binary64
