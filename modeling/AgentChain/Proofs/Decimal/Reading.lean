import AgentChain.Proofs.Decimal.Binary64

/-!
# Which written numbers have a float

A written number whose digits fit sixty-four bits is read with two roundings. Each of them raises
the value by the part `2 ^ -53` of it at most, so a number that is below the range by two such parts
has a float. Dividing by a power of ten never leaves the range.
-/

namespace AgentChain.Decimal

open Binary64 (limit value)

/-! ### Significands and powers of ten -/

/-- The part of a value that one rounding may add to it. -/
abbrev raised : ℚ :=
  1 + 2 ^ (-53 : Int)

theorem one_lt_raised : 1 < raised :=
  lt_add_of_pos_right 1 (by positivity)

theorem isFinite_div_tenTo (hx : x.isFinite) (hlow : 1 ≤ q)
    (hhigh : q ≤ 308) : (x / tenTo q).isFinite := by
  obtain ⟨m, e, hnormal, hexponent, -⟩ := Binary64.exists_normal_tenTo hhigh
  refine Binary64.isFinite_div hx hnormal ?_
  have hbits : 3 ≤ (10 ^ q).log2 := by
    rw [Nat.le_log2 (Nat.pow_pos (by decide)).ne']
    calc 2 ^ 3 ≤ 10 ^ 1 := by decide
      _ ≤ 10 ^ q := Nat.pow_le_pow_right (by decide) hlow
  omega

theorem limit_lt_tenTo (h : 308 < power) : limit < 10 ^ power := by
  have hten : 2 ^ 1024 ≤ 10 ^ power := calc
    2 ^ 1024 ≤ 10 ^ 309 := by decide +kernel
    _ ≤ 10 ^ power := Nat.pow_le_pow_right (by decide) h
  exact Binary64.limit_lt.trans_le (by exact_mod_cast hten)

theorem isFinite_mul_tenTo {n : UInt64} (hq : q ≤ 308)
    (hn : (n.toNat : ℚ) * 10 ^ q * raised ^ 2 < limit) :
    (n.toFloat * tenTo q).isFinite := by
  obtain ⟨m₂, e₂, hten, hlow₂, hvalue₂⟩ := Binary64.exists_normal_tenTo hq
  by_cases hzero : n.toNat = 0
  · obtain rfl : n = 0 := UInt64.toNat_inj.mp hzero
    exact Binary64.isFinite_zero_mul hten
  · obtain ⟨m₁, e₁, hnormal, hlow₁, hvalue₁⟩ := Binary64.exists_normal_toFloat hzero
    refine Binary64.isFinite_mul hnormal hten (by omega) (lt_of_le_of_lt ?_ hn)
    calc value m₁ e₁ * value m₂ e₂ ≤ (n.toNat * raised) * (10 ^ q * raised) := by
          gcongr
          exact mul_nonneg (Nat.cast_nonneg _) (by positivity)
      _ = n.toNat * 10 ^ q * raised ^ 2 := by ring

/-- A significand times a power of ten has a finite float. -/
def HasFloat (n : Nat) (power : Int) : Prop :=
  ∃ x, scaled? n power = some x ∧ x.isFinite = true

theorem hasFloat_iff : HasFloat n power ↔ (scaled? n power).any Float.isFinite := by
  unfold HasFloat
  cases scaled? n power <;> simp

/-- Two roundings of a value far enough below the range, or of a quotient, give a finite float. -/
theorem hasFloat_of_lt {n : Nat} (hn : n < 2 ^ 64) {power : Int}
    (hvalue : 0 ≤ power → (n : ℚ) * 10 ^ power.toNat * raised ^ 2 < limit) :
    HasFloat n power := by
  have hcast : (UInt64.ofNat n).toNat = n := UInt64.toNat_ofNat_of_lt' hn
  have hfinite := Binary64.isFinite_toFloat (UInt64.ofNat n)
  unfold HasFloat scaled?
  dsimp only
  split_ifs with hhuge hzero hpos hinf hneg hdeep
  · exact ⟨_, rfl, hfinite⟩
  · have hn : n ≠ 0 := by
      rintro rfl
      exact hzero (by decide +kernel)
    have hone : (1 : ℚ) ≤ n := by exact_mod_cast Nat.one_le_iff_ne_zero.mpr hn
    have hlimit : limit < 10 ^ power.toNat := limit_lt_tenTo (by omega)
    exact absurd (hvalue (by omega)) (not_lt.mpr (hlimit.le.trans (by
      calc (10 : ℚ) ^ power.toNat ≤ n * 10 ^ power.toNat :=
            le_mul_of_one_le_left (by positivity) hone
        _ ≤ n * 10 ^ power.toNat * raised ^ 2 :=
          le_mul_of_one_le_right (by positivity) (one_le_pow₀ one_lt_raised.le))))
  · have hproduct := isFinite_mul_tenTo (n := UInt64.ofNat n) (q := power.toNat) (by omega)
      (by rw [hcast]; exact hvalue hpos)
    rw [Binary64.isInf_eq_false hproduct] at hinf
    cases hinf
  · exact ⟨_, rfl, isFinite_mul_tenTo (by omega) (by rw [hcast]; exact hvalue hpos)⟩
  · exact ⟨_, rfl, isFinite_div_tenTo hfinite (by omega) (by omega)⟩
  · exact ⟨_, rfl, isFinite_div_tenTo (isFinite_div_tenTo hfinite (by omega) le_rfl) (by omega)
      (by omega)⟩
  · exact ⟨_, rfl, by decide +kernel⟩

/-! ### Runs of digits -/

theorem digitsValue_append (ds es : List Nat) :
    digitsValue (ds ++ es) = es.foldl (fun acc d => acc * 10 + d) (digitsValue ds) :=
  List.foldl_append

theorem le_foldl_digits (s : Nat) (ds : List Nat) : s ≤ ds.foldl (fun acc d => acc * 10 + d) s := by
  induction ds generalizing s with
  | nil => exact le_rfl
  | cons d ds ih => exact le_trans (by omega) (ih (s * 10 + d))

theorem takeWhole_eq (h : ds.foldl (fun acc d => acc * 10 + d) s < UInt64.size) :
    takeWhole s ds = (ds.foldl (fun acc d => acc * 10 + d) s, 0) := by
  induction ds generalizing s with
  | nil => rfl
  | cons d ds ih =>
    rw [takeWhole, if_pos ((le_foldl_digits _ ds).trans_lt h)]
    exact ih h

theorem takeFraction_eq (taken : Nat) (h : ds.foldl (fun acc d => acc * 10 + d) s < UInt64.size) :
    takeFraction s taken ds = (ds.foldl (fun acc d => acc * 10 + d) s, taken + ds.length) := by
  induction ds generalizing s taken with
  | nil => rfl
  | cons d ds ih =>
    rw [takeFraction, if_pos ((le_foldl_digits _ ds).trans_lt h), ih (taken + 1) h,
      List.length_cons, Nat.add_right_comm]
    rfl

theorem Written.float?_eq {w : Written} (h : digitsValue (w.whole ++ w.fraction) < 2 ^ 64) :
    w.float? = (scaled? (digitsValue (w.whole ++ w.fraction)) (w.power - w.fraction.length)).map
      fun x => if w.negative then -x else x := by
  rw [digitsValue_append] at h ⊢
  have hwhole := takeWhole_eq ((le_foldl_digits _ w.fraction).trans_lt h)
  simp only [float?, hwhole]
  rw [show w.whole.foldl (fun acc d => acc * 10 + d) 0 = digitsValue w.whole from rfl,
    takeFraction_eq 0 h]
  simp

theorem Written.exists_float {w : Written} (hdigits : digitsValue (w.whole ++ w.fraction) < 2 ^ 64)
    (hscaled : HasFloat (digitsValue (w.whole ++ w.fraction)) (w.power - w.fraction.length)) :
    ∃ x, w.float? = some x ∧ x.isFinite := by
  obtain ⟨x, hx, hfinite⟩ := hscaled
  rw [Written.float?_eq hdigits, hx]
  refine ⟨_, rfl, ?_⟩
  split_ifs
  · exact Binary64.isFinite_neg hfinite
  · exact hfinite

end AgentChain.Decimal
