import AgentChain.Decimal.Shortest
import Mathlib.Algebra.Order.Field.Power
import Mathlib.Algebra.Order.Field.Rat
import Mathlib.Tactic.Linarith
import Mathlib.Tactic.NormNum
import Mathlib.Tactic.Positivity
import Mathlib.Tactic.Ring

/-!
# What the shortest decimal of a float is

The search for the shortest decimal always ends on a grid with at most seventeen digits. A grid with
sixteen digits after the leading one is fine enough: two neighbours on it are less far apart than
the ends of the interval that rounds to the float. So the decimal lies in that interval, and it has
at most seventeen digits.
-/

namespace AgentChain.Binary

/-- The mantissa and exponent of a float. -/
structure Fits (b : Binary) : Prop where
  pos : 0 < b.mantissa
  lt : b.mantissa < 2 ^ 53
  le_exponent : -1074 ≤ b.exponent
  exponent_le : b.exponent ≤ 971
  /-- Only a power of two is nearer to the float below it. -/
  narrow : b.narrowBelow = true → b.mantissa = 2 ^ 52

def value (b : Binary) : ℚ :=
  b.mantissa * 2 ^ b.exponent

/-! ### Powers as fractions -/

theorem powerFraction_pos (hbase : 0 < base) (e : Int) :
    0 < (powerFraction base e).1 ∧ 0 < (powerFraction base e).2 := by
  unfold powerFraction
  split_ifs
  · exact ⟨Nat.pow_pos hbase, Nat.one_pos⟩
  · exact ⟨Nat.one_pos, Nat.pow_pos hbase⟩

theorem powerFraction_div (base : Nat) (e : Int) :
    ((powerFraction base e).1 : ℚ) / (powerFraction base e).2 = (base : ℚ) ^ e := by
  unfold powerFraction
  split_ifs with he
  · lift e to Nat using he
    simp
  · obtain ⟨k, rfl⟩ : ∃ k : Nat, e = -k := ⟨(-e).toNat, by omega⟩
    simp

theorem cross_le_iff (hbase : 0 < base) (hbase' : 0 < base') (e e' : Int) (m m' : Nat) :
    m' * ((powerFraction base' e').1 * (powerFraction base e).2) ≤
        m * ((powerFraction base e).1 * (powerFraction base' e').2) ↔
      (m' : ℚ) * base' ^ e' ≤ m * base ^ e := by
  have hd : (0 : ℚ) < (powerFraction base e).2 := by
    exact_mod_cast (powerFraction_pos hbase e).2
  have hd' : (0 : ℚ) < (powerFraction base' e').2 := by
    exact_mod_cast (powerFraction_pos hbase' e').2
  rw [← powerFraction_div, ← powerFraction_div, ← mul_div_assoc, ← mul_div_assoc,
    div_le_div_iff₀ hd' hd, ← Nat.cast_le (α := ℚ)]
  push_cast
  constructor <;> intro h <;> linarith

/-! ### The leading digit -/

section Logarithm

variable {n k : Nat} {l t : Int} (hn : n ≠ 0) (hlow : (2 : ℚ) ^ n ≤ 10 ^ k)
  (hhigh : (10 : ℚ) ^ k ≤ 2 ^ (n + 1))

include hn hlow hhigh

/-- If `k / n` is near the decimal logarithm of two, then `l * k / n` is a lower estimate of the one
of `2 ^ l`, up to one. -/
theorem ten_zpow_le_of_estimate (ht : n * t ≤ k * l) (hl : l ≤ 3 * n) :
    (10 : ℚ) ^ (t - 1) ≤ 2 ^ l := by
  rw [← pow_le_pow_iff_left₀ (by positivity) (by positivity) hn]
  have hten : ((10 : ℚ) ^ (t - 1)) ^ n ≤ (10 ^ k) ^ l * 10 ^ (-(n : Int)) := by
    rw [← zpow_natCast, ← zpow_natCast, ← zpow_mul, ← zpow_mul, ← zpow_add₀ (by norm_num)]
    exact zpow_le_zpow_right₀ (by norm_num) (by linarith)
  refine hten.trans ?_
  rw [zpow_neg, zpow_natCast, ← div_eq_mul_inv, div_le_iff₀ (by positivity)]
  have height : (2 : ℚ) ^ (3 * n) ≤ 10 ^ n := by
    rw [pow_mul]
    exact pow_le_pow_left₀ (by positivity) (by norm_num) n
  obtain ⟨j, rfl | rfl⟩ := l.eq_nat_or_neg
  · calc ((10 : ℚ) ^ k) ^ (j : Int) ≤ (2 ^ (n + 1)) ^ j := by
          rw [zpow_natCast]
          exact pow_le_pow_left₀ (by positivity) hhigh j
      _ = (2 ^ j) ^ n * 2 ^ j := by ring
      _ ≤ (2 ^ j) ^ n * 10 ^ n := by
          gcongr
          exact (pow_le_pow_right₀ one_le_two (by omega)).trans height
  · calc ((10 : ℚ) ^ k) ^ (-(j : Int)) ≤ ((2 ^ n) ^ j)⁻¹ := by
          rw [zpow_neg, zpow_natCast]
          exact inv_anti₀ (by positivity) (pow_le_pow_left₀ (by positivity) hlow j)
      _ = (2 ^ (-(j : Int))) ^ n := by rw [zpow_neg, zpow_natCast, inv_pow, pow_right_comm]
      _ ≤ (2 ^ (-(j : Int))) ^ n * 10 ^ n :=
          le_mul_of_one_le_right (by positivity) (one_le_pow₀ (by norm_num))

theorem two_zpow_le_of_estimate (ht : k * l < n * (t + 1)) (hl : -(2 * n) ≤ l) :
    (2 : ℚ) ^ (l + 1) ≤ 10 ^ (t + 2) := by
  rw [← pow_le_pow_iff_left₀ (by positivity) (by positivity) hn]
  have hten : (10 ^ k) ^ l * 10 ^ n ≤ ((10 : ℚ) ^ (t + 2)) ^ n := by
    rw [← zpow_natCast, ← zpow_natCast, ← zpow_natCast, ← zpow_mul, ← zpow_mul,
      ← zpow_add₀ (by norm_num)]
    exact zpow_le_zpow_right₀ (by norm_num) (by linarith)
  refine le_trans ?_ hten
  rw [zpow_add_one₀ two_ne_zero, mul_pow]
  obtain ⟨j, rfl | rfl⟩ := l.eq_nat_or_neg
  · simp only [zpow_natCast]
    rw [pow_right_comm]
    gcongr
    norm_num
  · have hj : j ≤ 2 * n := by omega
    have hsplit : ((2 : ℚ) ^ (n + 1)) ^ j = (2 ^ j) ^ n * 2 ^ j := by ring
    calc ((2 : ℚ) ^ (-(j : Int))) ^ n * 2 ^ n = ((2 ^ (n + 1)) ^ j)⁻¹ * (2 ^ j * 2 ^ n) := by
          rw [zpow_neg, zpow_natCast, hsplit, mul_inv, inv_pow, mul_assoc,
            inv_mul_cancel_left₀ (by positivity)]
      _ ≤ ((10 ^ k) ^ j)⁻¹ * 10 ^ n := by
          gcongr
          calc (2 : ℚ) ^ j * 2 ^ n ≤ 2 ^ (2 * n) * 2 ^ n := by
                gcongr
                exact one_le_two
            _ = (2 ^ 3) ^ n := by rw [← pow_add, ← pow_mul, Nat.succ_mul 2 n]
            _ ≤ 10 ^ n := pow_le_pow_left₀ (by positivity) (by norm_num) n
      _ = (10 ^ k) ^ (-(j : Int)) * 10 ^ n := by rw [zpow_neg, zpow_natCast]

end Logarithm

theorem two_pow_le_ten_pow : (2 : ℚ) ^ 100000 ≤ 10 ^ 30103 := by
  have h : 2 ^ 100000 ≤ 10 ^ 30103 := by decide +kernel
  have hcast : ((2 ^ 100000 : Nat) : ℚ) ≤ ((10 ^ 30103 : Nat) : ℚ) := Nat.cast_le.mpr h
  rwa [Nat.cast_pow, Nat.cast_pow, Nat.cast_ofNat, Nat.cast_ofNat] at hcast

theorem ten_pow_le_two_pow : (10 : ℚ) ^ 30103 ≤ 2 ^ (100000 + 1) := by
  have h : 10 ^ 30103 ≤ 2 ^ (100000 + 1) := by decide +kernel
  have hcast : ((10 ^ 30103 : Nat) : ℚ) ≤ ((2 ^ (100000 + 1) : Nat) : ℚ) := Nat.cast_le.mpr h
  rwa [Nat.cast_pow, Nat.cast_pow, Nat.cast_ofNat, Nat.cast_ofNat] at hcast

theorem two_zpow_le_value {b : Binary} (hb : 0 < b.mantissa) :
    (2 : ℚ) ^ ((Nat.log2 b.mantissa : Int) + b.exponent) ≤ b.value := by
  have hpow : (2 : ℚ) ^ Nat.log2 b.mantissa ≤ b.mantissa := by
    exact_mod_cast Nat.log2_self_le hb.ne'
  rw [value, zpow_add₀ two_ne_zero, zpow_natCast]
  gcongr

theorem value_lt_two_zpow (b : Binary) :
    b.value < 2 ^ ((Nat.log2 b.mantissa : Int) + b.exponent + 1) := by
  have hpow : (b.mantissa : ℚ) < 2 ^ (Nat.log2 b.mantissa + 1) := by
    exact_mod_cast Nat.lt_log2_self
  rw [value, add_right_comm, zpow_add₀ two_ne_zero]
  gcongr
  exact_mod_cast hpow

theorem reaches_iff (b : Binary) (e : Int) :
    (powerFraction 10 e).1 * (powerFraction 2 b.exponent).2 ≤
        b.mantissa * (powerFraction 2 b.exponent).1 * (powerFraction 10 e).2 ↔
      (10 : ℚ) ^ e ≤ b.value := by
  have h := cross_le_iff two_pos (show 0 < 10 by decide) b.exponent e b.mantissa 1
  rw [Nat.one_mul, Nat.cast_one, one_mul, ← Nat.mul_assoc] at h
  exact_mod_cast h

theorem leadingExponent_spec {b : Binary} (hb : b.Fits) :
    (10 : ℚ) ^ b.leadingExponent ≤ b.value ∧ b.value < 10 ^ (b.leadingExponent + 1) := by
  have hlog : Nat.log2 b.mantissa < 53 := (Nat.log2_lt hb.pos.ne').mpr hb.lt
  have := hb.le_exponent
  have := hb.exponent_le
  generalize ht : ((Nat.log2 b.mantissa : Int) + b.exponent) * 30103 / 100000 = t
  have hbelow : (10 : ℚ) ^ (t - 1) ≤ b.value :=
    (ten_zpow_le_of_estimate (by decide) two_pow_le_ten_pow ten_pow_le_two_pow (by omega)
      (by omega)).trans (two_zpow_le_value hb.pos)
  have habove : b.value < 10 ^ (t + 2) :=
    b.value_lt_two_zpow.trans_le (two_zpow_le_of_estimate (by decide) two_pow_le_ten_pow
      ten_pow_le_two_pow (by omega) (by omega))
  unfold leadingExponent
  simp only [ht, reaches_iff, decide_eq_true_eq]
  split_ifs with h₁ h₂
  · exact ⟨h₁, by rwa [add_assoc]⟩
  · exact ⟨h₂, not_le.mp h₁⟩
  · exact ⟨hbelow, by rw [sub_add_cancel]; exact not_le.mp h₂⟩

/-! ### Grids -/

/-- The distance of neighbours on a grid, as a natural number. -/
def gridUnit (b : Binary) (power : Int) : Nat :=
  (powerFraction 10 power).1 * (powerFraction 2 (b.exponent - 2)).2

/-- A quarter of the unit of the mantissa, on the same scale. -/
def gridScale (b : Binary) (power : Int) : Nat :=
  (powerFraction 2 (b.exponent - 2)).1 * (powerFraction 10 power).2

/-- How many quarters below the value its interval begins. -/
def quartersBelow (b : Binary) : Nat :=
  if b.narrowBelow then 1 else 2

/-- Whether a number of the grid rounds to the float. -/
def inside (b : Binary) (power : Int) (c : Nat) : Bool :=
  if b.mantissa % 2 = 0 then
    (4 * b.mantissa - b.quartersBelow) * b.gridScale power ≤ c * b.gridUnit power &&
      c * b.gridUnit power ≤ (4 * b.mantissa + 2) * b.gridScale power
  else
    (4 * b.mantissa - b.quartersBelow) * b.gridScale power < c * b.gridUnit power &&
      c * b.gridUnit power < (4 * b.mantissa + 2) * b.gridScale power

/-- The number of the grid just below the value, or equal to it. -/
def gridBelow (b : Binary) (power : Int) : Nat :=
  4 * b.mantissa * b.gridScale power / b.gridUnit power

variable {b : Binary} {power : Int} {c : Nat}

theorem onGrid?_eq (b : Binary) (power : Int) :
    b.onGrid? power =
      match b.inside power (b.gridBelow power), b.inside power (b.gridBelow power + 1) with
      | false, false => none
      | true, false => some (b.gridBelow power)
      | false, true => some (b.gridBelow power + 1)
      | true, true =>
        if 2 * (4 * b.mantissa * b.gridScale power) <
            (b.gridBelow power + (b.gridBelow power + 1)) * b.gridUnit power then
          some (b.gridBelow power)
        else if (b.gridBelow power + (b.gridBelow power + 1)) * b.gridUnit power <
            2 * (4 * b.mantissa * b.gridScale power) then
          some (b.gridBelow power + 1)
        else if b.gridBelow power % 2 = 0 then some (b.gridBelow power)
        else some (b.gridBelow power + 1) :=
  rfl

theorem inside_of_onGrid? (h : b.onGrid? power = some c) :
    b.inside power c ∧ c ≤ b.gridBelow power + 1 := by
  rw [onGrid?_eq] at h
  split at h
  · cases h
  · rename_i hbelow habove
    cases h
    exact ⟨hbelow, Nat.le_succ _⟩
  · rename_i hbelow habove
    cases h
    exact ⟨habove, le_rfl⟩
  · rename_i hbelow habove
    split_ifs at h <;> cases h
    · exact ⟨hbelow, Nat.le_succ _⟩
    · exact ⟨habove, le_rfl⟩
    · exact ⟨hbelow, Nat.le_succ _⟩
    · exact ⟨habove, le_rfl⟩

theorem bounds_of_inside (h : b.inside power c) :
    (4 * b.mantissa - b.quartersBelow) * b.gridScale power ≤ c * b.gridUnit power ∧
      c * b.gridUnit power ≤ (4 * b.mantissa + 2) * b.gridScale power := by
  unfold inside at h
  split_ifs at h
  · simpa using h
  · simp only [Bool.and_eq_true, decide_eq_true_eq] at h
    exact ⟨h.1.le, h.2.le⟩

theorem inside_of_bounds
    (hlow : (4 * b.mantissa - b.quartersBelow) * b.gridScale power < c * b.gridUnit power)
    (hhigh : c * b.gridUnit power < (4 * b.mantissa + 2) * b.gridScale power) :
    b.inside power c := by
  unfold inside
  split_ifs
  · simp [hlow.le, hhigh.le]
  · simp [hlow, hhigh]

theorem gridUnit_pos (b : Binary) (power : Int) : 0 < b.gridUnit power :=
  Nat.mul_pos (powerFraction_pos (by decide) _).1 (powerFraction_pos two_pos _).2

theorem gridScale_pos (b : Binary) (power : Int) : 0 < b.gridScale power :=
  Nat.mul_pos (powerFraction_pos two_pos _).1 (powerFraction_pos (by decide) _).2

theorem exists_onGrid (hb : 0 < b.mantissa)
    (hfine : b.gridUnit power < (b.quartersBelow + 2) * b.gridScale power) :
    ∃ c, b.onGrid? power = some c := by
  have hquarters : b.quartersBelow ≤ 4 * b.mantissa := by
    unfold quartersBelow
    split_ifs <;> omega
  have hinside : b.inside power (b.gridBelow power) ∨
      b.inside power (b.gridBelow power + 1) := by
    have hdiv := Nat.div_add_mod (4 * b.mantissa * b.gridScale power) (b.gridUnit power)
    have hmod := Nat.mod_lt (4 * b.mantissa * b.gridScale power) (b.gridUnit_pos power)
    have hscale := b.gridScale_pos power
    have hlow := Nat.mul_le_mul_right (b.gridScale power) hquarters
    rw [← gridBelow, Nat.mul_comm] at hdiv
    by_cases hnear : 4 * b.mantissa * b.gridScale power % b.gridUnit power <
        b.quartersBelow * b.gridScale power
    · refine .inl (inside_of_bounds ?_ ?_)
      · rw [Nat.sub_mul]
        omega
      · rw [Nat.add_mul]
        omega
    · refine .inr (inside_of_bounds ?_ ?_)
      · rw [Nat.sub_mul, Nat.add_mul]
        omega
      · rw [Nat.add_mul, Nat.add_mul]
        rw [Nat.add_mul] at hfine
        omega
  rw [onGrid?_eq]
  split
  · simp_all
  · exact ⟨_, rfl⟩
  · exact ⟨_, rfl⟩
  · split_ifs <;> exact ⟨_, rfl⟩

theorem grid_le_iff (b : Binary) (power : Int) (m c : Nat) :
    c * b.gridUnit power ≤ m * b.gridScale power ↔
      (c : ℚ) * 10 ^ power ≤ m * 2 ^ (b.exponent - 2) :=
  cross_le_iff two_pos (by decide) (b.exponent - 2) power m c

theorem four_mul_zpow (b : Binary) : (4 : ℚ) * 2 ^ (b.exponent - 2) = 2 ^ b.exponent := by
  rw [zpow_sub₀ two_ne_zero]
  exact mul_div_cancel₀ _ (by norm_num)

theorem value_eq (b : Binary) : b.value = (4 * b.mantissa : Nat) * 2 ^ (b.exponent - 2) := by
  rw [value, ← four_mul_zpow]
  push_cast
  ring

theorem gridUnit_lt (hb : b.Fits) :
    b.gridUnit (b.leadingExponent - 16) <
      (b.quartersBelow + 2) * b.gridScale (b.leadingExponent - 16) := by
  have hlead := (leadingExponent_spec hb).1
  have hmantissa : 4 * b.mantissa < (b.quartersBelow + 2) * 10 ^ 16 := by
    unfold quartersBelow
    split_ifs with hnarrow
    · rw [hb.narrow hnarrow]
      decide
    · have := hb.lt
      omega
  by_contra hcoarse
  have hunit : ((b.quartersBelow + 2 : Nat) : ℚ) * 2 ^ (b.exponent - 2) ≤
      1 * 10 ^ (b.leadingExponent - 16) := by
    refine (cross_le_iff (by decide) two_pos _ _ 1 (b.quartersBelow + 2)).mp ?_
    rw [Nat.one_mul]
    exact not_lt.mp hcoarse
  rw [one_mul, zpow_sub₀ (show (10 : ℚ) ≠ 0 by norm_num), le_div_iff₀ (by positivity)] at hunit
  have hle := hunit.trans hlead
  rw [value_eq, mul_right_comm] at hle
  have := le_of_mul_le_mul_right hle (by positivity)
  exact absurd hmantissa (not_lt.mpr (by exact_mod_cast this))

/-! ### The search -/

theorem search_spec (digits : Nat)
    (hlast : ∃ c, b.onGrid? (lead - (digits + count : Nat)) = some c) :
    ∃ j c, digits ≤ j ∧ j ≤ digits + count ∧ b.onGrid? (lead - j) = some c ∧
      b.search lead (count + 1) digits = ⟨c, lead - j⟩ := by
  induction count generalizing digits with
  | zero =>
    obtain ⟨c, hc⟩ := hlast
    exact ⟨digits, c, le_rfl, le_rfl, hc,
      by rw [search, show b.onGrid? (lead - digits) = _ from hc]⟩
  | succ count ih =>
    cases hgrid : b.onGrid? (lead - digits) with
    | some c => exact ⟨digits, c, le_rfl, Nat.le_add_right _ _, hgrid, by rw [search, hgrid]⟩
    | none =>
      obtain ⟨j, c, hlow, hhigh, hc, hsearch⟩ := ih (digits + 1) (by
        rwa [show digits + 1 + count = digits + (count + 1) by omega])
      exact ⟨j, c, by omega, by omega, hc, by rw [search, hgrid, hsearch]⟩

theorem dropZeros_spec (count : Nat) (d : Decimal) (hd : 0 < d.digits) :
    0 < (dropZeros count d).digits ∧ (dropZeros count d).digits ≤ d.digits ∧
      ((dropZeros count d).digits : ℚ) * 10 ^ (dropZeros count d).exponent =
        d.digits * 10 ^ d.exponent := by
  induction count generalizing d with
  | zero => exact ⟨hd, le_rfl, rfl⟩
  | succ count ih =>
    rw [dropZeros]
    split_ifs with hzero
    · have hdiv : d.digits / 10 * 10 = d.digits := Nat.div_mul_cancel (Nat.dvd_of_mod_eq_zero hzero)
      obtain ⟨hpos, hle, hvalue⟩ := ih ⟨d.digits / 10, d.exponent + 1⟩ (by
        change 0 < d.digits / 10
        omega)
      refine ⟨hpos, hle.trans (Nat.div_le_self _ _), hvalue.trans ?_⟩
      have hcast : ((d.digits / 10 : Nat) : ℚ) * 10 = d.digits := by exact_mod_cast hdiv
      rw [zpow_add_one₀ (by norm_num), ← hcast]
      ring
    · exact ⟨hd, le_rfl, rfl⟩

/-- A number of a grid has at most one digit more than the grid has powers below the leading one. -/
theorem le_of_onGrid? (hb : b.Fits) {j : Nat} (h : b.onGrid? (b.leadingExponent - j) = some c) :
    c ≤ 10 ^ (j + 1) := by
  have hlead := (leadingExponent_spec hb).2
  have hbelow : b.gridBelow (b.leadingExponent - j) < 10 ^ (j + 1) := by
    rw [gridBelow, Nat.div_lt_iff_lt_mul (b.gridUnit_pos _)]
    by_contra hlarge
    have hle := (grid_le_iff b _ _ _).mp (not_lt.mp hlarge)
    rw [← value_eq] at hle
    refine absurd hlead (not_lt.mpr (le_of_eq_of_le ?_ hle))
    push_cast
    rw [← zpow_natCast, ← zpow_add₀ (by norm_num)]
    congr 1
    push_cast
    ring
  have := (inside_of_onGrid? h).2
  omega

/-- The shortest decimal of a float has at most seventeen digits, apart from `10 ^ 17` itself, and
is at most half a unit above the float. -/
theorem shortest_spec (hb : b.Fits) :
    0 < b.shortest.digits ∧ b.shortest.digits ≤ 10 ^ 17 ∧
      (b.shortest.digits : ℚ) * 10 ^ b.shortest.exponent ≤
        (2 * b.mantissa + 1) * 2 ^ (b.exponent - 1) := by
  have hlast : ∃ c, b.onGrid? (b.leadingExponent - (0 + 16 : Nat)) = some c := by
    rw [show ((0 + 16 : Nat) : Int) = 16 from rfl]
    exact exists_onGrid hb.pos (gridUnit_lt hb)
  obtain ⟨j, c, -, hj, hgrid, hsearch⟩ := search_spec 0 hlast
  have hc : c ≤ 10 ^ 17 :=
    (le_of_onGrid? hb hgrid).trans (Nat.pow_le_pow_right (by decide) (by omega))
  obtain ⟨hlow, hhigh⟩ := bounds_of_inside (inside_of_onGrid? hgrid).1
  have hpos : 0 < c := by
    rw [Nat.pos_iff_ne_zero]
    rintro rfl
    have hquarters : 0 < 4 * b.mantissa - b.quartersBelow := by
      have := hb.pos
      unfold quartersBelow
      split_ifs <;> omega
    have := Nat.mul_pos hquarters (b.gridScale_pos (b.leadingExponent - j))
    omega
  rw [shortest, if_neg hb.pos.ne', hsearch]
  obtain ⟨hpos', hle, hvalue⟩ := dropZeros_spec 20 ⟨c, b.leadingExponent - j⟩ hpos
  refine ⟨hpos', hle.trans hc, hvalue.trans_le ?_⟩
  refine ((grid_le_iff b _ _ c).mp hhigh).trans_eq ?_
  rw [show b.exponent - 1 = b.exponent - 2 + 1 by ring, zpow_add_one₀ two_ne_zero]
  push_cast
  ring

end AgentChain.Binary
