import AgentChain.Json.Parser
import AgentChain.Json.Printer
import AgentChain.Proofs.Decimal.Layout

/-!
# Written numbers are read back

A number that is written and read again is a number. Integers come back unchanged. A float comes
back as a finite float, though not always as the same one, because the reader rounds twice.
-/

namespace AgentChain.Json

open Decimal (Numeral)

/-- What may follow a number: nothing that could go on with it. -/
def EndsNumber (rest : List Char) : Prop :=
  ∀ c, rest.head? = some c → isDigit c = false ∧ c ≠ '.' ∧ c ≠ 'e' ∧ c ≠ 'E'

/-! ### Digits -/

theorem scanDigits_append (hds : ∀ c ∈ ds, c.isDigit)
    (hrest : ∀ c, rest.head? = some c → isDigit c = false) :
    scanDigits (ds ++ rest) = (ds.map digitValue, rest) := by
  have hnone : rest.takeWhile isDigit = [] ∧ rest.dropWhile isDigit = rest := by
    cases rest with
    | nil => exact ⟨rfl, rfl⟩
    | cons c rest =>
      have := hrest c rfl
      simp [this]
  have hds : ∀ c ∈ ds, isDigit c := hds
  rw [scanDigits, List.takeWhile_append_of_pos hds, List.dropWhile_append_of_pos hds, hnone.1,
    hnone.2, List.append_nil]

theorem digitsValue_map_digitValue (cs : List Char) :
    Decimal.digitsValue (cs.map digitValue) = Nat.ofDigitChars 10 cs 0 := by
  rw [Decimal.digitsValue, List.foldl_map, Nat.ofDigitChars_eq_foldl]
  congr 1
  funext acc c
  rw [Nat.mul_comm]
  rfl

theorem digitValue_ne_zero (hc : c.isDigit) (hzero : c ≠ '0') : digitValue c ≠ 0 := by
  have hle : 48 ≤ c.toNat := by
    simp only [Char.isDigit, Bool.and_eq_true, decide_eq_true_eq] at hc
    exact UInt32.le_iff_toNat_le.mp hc.1
  have hne : c.toNat ≠ 48 := fun h => hzero (Char.toNat_inj.mp h)
  unfold digitValue
  omega

variable {rest : List Char} {n : Numeral}

theorem scanWhole_append (hn : n.Valid) (hrest : ∀ c, rest.head? = some c → isDigit c = false) :
    scanWhole (n.whole ++ rest) = some (n.whole.map digitValue, rest) := by
  rw [scanWhole, scanDigits_append hn.isDigit_whole hrest]
  cases hwhole : n.whole with
  | nil => exact absurd hwhole hn.whole_ne_nil
  | cons c cs =>
    split
    · rename_i heq
      cases heq
    · rename_i head tail _ heq
      exfalso
      obtain ⟨hc, hcs⟩ := List.cons.inj (Prod.mk.inj heq).1
      obtain hone | hne := hn.lead
      · simp [hwhole] at hone
        simp [hone] at hcs
      · refine digitValue_ne_zero (hn.isDigit_whole c (by simp [hwhole])) ?_ hc
        simpa [hwhole] using hne
    · rename_i heq
      cases heq
      rfl

theorem scanFraction_append (hn : n.Valid) (hrest : ∀ c, rest.head? = some c → isDigit c = false)
    (hpoint : n.fraction = [] → rest.head? ≠ some '.') :
    scanFraction ((if n.fraction = [] then [] else '.' :: n.fraction) ++ rest) =
      some (n.fraction.map digitValue, rest) := by
  split_ifs with hfraction
  · rw [hfraction, List.nil_append]
    unfold scanFraction
    split
    · rename_i heq
      exact absurd rfl (hpoint hfraction)
    · rfl
  · rw [List.cons_append, scanFraction, scanDigits_append hn.isDigit_fraction hrest]
    cases hdigits : n.fraction with
    | nil => exact absurd hdigits hfraction
    | cons c cs => rfl

theorem digitsValue_toDigits (k : Nat) :
    Decimal.digitsValue ((Nat.toDigits 10 k).map digitValue) = k := by
  rw [digitsValue_map_digitValue, Nat.ofDigitChars_ten_toDigits]

theorem scanDigits_power (k : Nat)
    (hrest : ∀ c, rest.head? = some c → isDigit c = false) (f : Nat → α) :
    (match scanDigits (Nat.toDigits 10 k ++ rest) with
      | ([], _) => none
      | (digits, rest) => some (f (Decimal.digitsValue digits), rest)) = some (f k, rest) := by
  have hvalue := digitsValue_toDigits k
  rw [scanDigits_append (fun _ => Decimal.isDigit_of_mem_toDigits) hrest]
  cases hdigits : (Nat.toDigits 10 k).map digitValue with
  | nil => simp [Nat.toDigits_ne_nil] at hdigits
  | cons d ds =>
    rw [hdigits] at hvalue
    simp [hvalue]

theorem scanPower_append (power : Option Int) (hrest : EndsNumber rest) :
    scanPower ((power.elim [] fun e => 'e' :: Decimal.Layout.signedDigits e) ++ rest) =
      some (power, rest) := by
  have hdigit : ∀ c, rest.head? = some c → isDigit c = false := fun c hc => (hrest c hc).1
  cases power with
  | none =>
    cases rest with
    | nil => rfl
    | cons c rest =>
      obtain ⟨-, -, he, hE⟩ := hrest c rfl
      simp [scanPower, he, hE]
  | some e =>
    simp only [Option.elim_some, Decimal.Layout.signedDigits, Decimal.Layout.digitsOf]
    by_cases hneg : e < 0
    · rw [if_pos hneg]
      refine (scanDigits_power e.natAbs hdigit fun n => some (-(n : Int))).trans ?_
      rw [show -(e.natAbs : Int) = e by omega]
    · rw [if_neg hneg]
      refine (scanDigits_power e.natAbs hdigit fun n => some (n : Int)).trans ?_
      rw [show (e.natAbs : Int) = e by omega]

/-! ### Numerals -/

def writtenOf (negative : Bool) (n : Numeral) : Decimal.Written where
  negative
  whole := n.whole.map digitValue
  fraction := n.fraction.map digitValue
  power := n.power.getD 0
  integral := (n.fraction.map digitValue).isEmpty && n.power.isNone

def scanUnsigned (negative : Bool) (cs : List Char) : Option (Option Number × List Char) :=
  (scanWhole cs).bind fun (whole, afterWhole) =>
    (scanFraction afterWhole).bind fun (fraction, afterFraction) =>
      (scanPower afterFraction).map fun (power, rest) =>
        (Number.ofWritten? ⟨negative, whole, fraction, power.getD 0,
          fraction.isEmpty && power.isNone⟩, rest)

theorem scanNumber_of_head?_ne (h : cs.head? ≠ some '-') :
    scanNumber cs = scanUnsigned false cs := by
  unfold scanNumber
  split
  rename_i heq
  split at heq
  · exact absurd rfl h
  · cases heq
    rfl

theorem isDigit_head?_power (power : Option Int) (hrest : EndsNumber rest) (c : Char)
    (hc : ((power.elim [] fun e => 'e' :: Decimal.Layout.signedDigits e) ++ rest).head? = some c) :
    isDigit c = false ∧ c ≠ '.' := by
  cases power with
  | none => exact ⟨(hrest c hc).1, (hrest c hc).2.1⟩
  | some e =>
    obtain rfl : 'e' = c := by simpa using hc
    decide

theorem scanUnsigned_numeral (hn : n.Valid) (negative : Bool) (hrest : EndsNumber rest) :
    scanUnsigned negative (n.chars ++ rest) =
      some (Number.ofWritten? (writtenOf negative n), rest) := by
  have hpower := scanPower_append n.power hrest
  have hhead := isDigit_head?_power n.power hrest
  rw [Numeral.chars, List.append_assoc, List.append_assoc]
  generalize (n.power.elim [] fun e => 'e' :: Decimal.Layout.signedDigits e) ++ rest = tail
    at hpower hhead
  have hfraction := scanFraction_append hn (fun c hc => (hhead c hc).1)
    (fun _ hc => (hhead '.' hc).2 rfl)
  have hpoint : ∀ c, ((if n.fraction = [] then [] else '.' :: n.fraction) ++ tail).head? = some c →
      isDigit c = false := by
    intro c hc
    split_ifs at hc
    · exact (hhead c hc).1
    · obtain rfl : '.' = c := by simpa using hc
      rfl
  simp only [scanUnsigned, scanWhole_append hn hpoint, hfraction, hpower, Option.bind_some,
    Option.map_some]
  rfl

theorem scanNumber_numeral (hn : n.Valid) (negative : Bool) (hrest : EndsNumber rest) :
    scanNumber ((if negative then ['-'] else []) ++ (n.chars ++ rest)) =
      some (Number.ofWritten? (writtenOf negative n), rest) := by
  cases negative with
  | true => exact scanUnsigned_numeral hn true hrest
  | false =>
    refine (scanNumber_of_head?_ne ?_).trans (scanUnsigned_numeral hn false hrest)
    intro hminus
    cases hwhole : n.whole with
    | nil => exact hn.whole_ne_nil hwhole
    | cons c cs =>
      obtain rfl : c = '-' := by simpa [Numeral.chars, hwhole] using hminus
      exact absurd (hn.isDigit_whole '-' (by simp [hwhole])) (by decide)

/-! ### Numbers -/

def integerNumeral (k : Nat) : Numeral :=
  ⟨Nat.toDigits 10 k, [], none⟩

theorem valid_integerNumeral (k : Nat) : (integerNumeral k).Valid := by
  refine ⟨Nat.toDigits_ne_nil, fun _ => Decimal.isDigit_of_mem_toDigits, by simp [integerNumeral],
    ?_⟩
  by_cases hk : k = 0
  · exact .inl (by simp [integerNumeral, hk])
  · exact .inr (Decimal.head?_toDigits hk)

theorem chars_integerNumeral (k : Nat) : (integerNumeral k).chars = Nat.toDigits 10 k := by
  simp [Numeral.chars, integerNumeral]

theorem isNaN_eq_false {x : Float} (h : x.isFinite) : x.isNaN = false := by
  change x.toModel.unpack.isFinite = true at h
  change x.toModel.unpack.isNaN = false
  cases hx : x.toModel.unpack with
  | infinity | zero | finite => rfl
  | notANumber => simp [hx, Float.Model.UnpackedFloat.isFinite] at h

theorem chars_float {x : Float} (h : x.isFinite) :
    (Number.float x h).chars =
      (if decide (x.toBits.toNat ≥ 1 <<< 63) then ['-'] else []) ++
        (Numeral.ofDecimal (Binary.ofFloat x).shortest).chars := by
  rw [← Decimal.Layout.chars_document, Number.chars, Decimal.Layout.render, isNaN_eq_false h,
    Binary64.isInf_eq_false h]
  simp only [Bool.false_eq_true, if_false, decide_eq_true_eq]
  split_ifs <;> simp

theorem digitsValue_writtenOf (negative : Bool) (n : Numeral) :
    Decimal.digitsValue ((writtenOf negative n).whole ++ (writtenOf negative n).fraction) =
      n.significand := by
  rw [Numeral.significand, ← digitsValue_map_digitValue, List.map_append]
  rfl

theorem exists_ofWritten_float (negative : Bool)
    (hparts : ¬(n.fraction = [] ∧ n.power = none)) (hfits : n.significand < 2 ^ 64)
    (hfloat : Decimal.HasFloat n.significand n.shift) :
    ∃ x h, Number.ofWritten? (writtenOf negative n) = some (.float x h) := by
  have hintegral : (writtenOf negative n).integral = false := by
    simpa [writtenOf, Option.isSome_iff_ne_none] using hparts
  have hvalue := digitsValue_writtenOf negative n
  obtain ⟨x, hx, hfinite⟩ := Decimal.Written.exists_float (w := writtenOf negative n)
    (by rwa [hvalue]) (by
      rw [hvalue]
      simpa [writtenOf, Numeral.shift] using hfloat)
  refine ⟨x, hfinite, ?_⟩
  rw [Number.ofWritten?, hintegral, hx]
  simp [Number.ofFloat?, hfinite]

theorem integral_integerNumeral (negative : Bool) (k : Nat) :
    (writtenOf negative (integerNumeral k)).integral :=
  rfl

theorem ofWritten_natural (k : UInt64) :
    Number.ofWritten? (writtenOf false (integerNumeral k.toNat)) = some (.natural k) := by
  have hvalue : (writtenOf false (integerNumeral k.toNat)).natural = k.toNat :=
    digitsValue_toDigits k.toNat
  have hsigned : ((!(writtenOf false (integerNumeral k.toNat)).negative) &&
      decide (k.toNat < UInt64.size)) := by
    simp [writtenOf, k.toNat_lt]
  simp only [Number.ofWritten?, hvalue]
  rw [if_pos (integral_integerNumeral _ _), if_pos hsigned, UInt64.ofNat_toNat]

theorem ofWritten_negative (k : Fin (1 <<< 63)) :
    Number.ofWritten? (writtenOf true (integerNumeral (k.val + 1))) = some (.negative k) := by
  have hvalue : (writtenOf true (integerNumeral (k.val + 1))).natural = k.val + 1 :=
    digitsValue_toDigits _
  have hrange : (writtenOf true (integerNumeral (k.val + 1))).negative ∧ 0 < k.val + 1 ∧
      k.val + 1 ≤ 1 <<< 63 := ⟨rfl, Nat.succ_pos _, k.isLt⟩
  simp only [Number.ofWritten?, hvalue]
  rw [if_pos (integral_integerNumeral _ _), if_neg (by simp [writtenOf]), dif_pos hrange]
  rfl

theorem Number.exists_head_chars (n : Number) :
    ∃ c cs, n.chars = c :: cs ∧ (c.isDigit ∨ c = '-') := by
  have hdigits (k : Nat) : ∃ c cs, Nat.toDigits 10 k = c :: cs ∧ (c.isDigit ∨ c = '-') := by
    obtain ⟨c, cs, hcs⟩ := List.exists_cons_of_ne_nil (Nat.toDigits_ne_nil (n := k) (b := 10))
    exact ⟨c, cs, hcs, .inl (Decimal.isDigit_of_mem_toDigits (hcs ▸ List.mem_cons_self))⟩
  cases n with
  | natural k => exact hdigits k.toNat
  | negative k => exact ⟨_, _, rfl, .inr rfl⟩
  | float x h =>
    have hvalid := (Numeral.spec_ofFloat h).1
    obtain ⟨c, cs, hwhole⟩ := List.exists_cons_of_ne_nil hvalid.whole_ne_nil
    rw [chars_float]
    split_ifs
    · exact ⟨_, _, rfl, .inr rfl⟩
    · refine ⟨c, _, by rw [Numeral.chars, hwhole]; rfl, .inl ?_⟩
      exact hvalid.isDigit_whole c (hwhole ▸ List.mem_cons_self)

theorem scanNumber_natural (k : UInt64) (hrest : EndsNumber rest) :
    scanNumber ((Number.natural k).chars ++ rest) = some (some (.natural k), rest) := by
  rw [← ofWritten_natural, ← scanNumber_numeral (valid_integerNumeral _) false hrest,
    chars_integerNumeral]
  rfl

theorem scanNumber_negative (k : Fin (1 <<< 63)) (hrest : EndsNumber rest) :
    scanNumber ((Number.negative k).chars ++ rest) = some (some (.negative k), rest) := by
  rw [← ofWritten_negative, ← scanNumber_numeral (valid_integerNumeral _) true hrest,
    chars_integerNumeral]
  rfl

theorem exists_scanNumber_chars (n : Number) :
    ∃ n' : Number, ∀ rest, EndsNumber rest →
      scanNumber (n.chars ++ rest) = some (some n', rest) := by
  cases n with
  | natural k => exact ⟨.natural k, fun rest hrest => scanNumber_natural k hrest⟩
  | negative k => exact ⟨.negative k, fun rest hrest => scanNumber_negative k hrest⟩
  | float x h =>
    obtain ⟨hvalid, hfits, hfloat⟩ := Numeral.spec_ofFloat h
    obtain ⟨y, hy, hread⟩ := exists_ofWritten_float (decide (x.toBits.toNat ≥ 1 <<< 63))
      (Numeral.not_integral_ofDecimal _) hfits hfloat
    refine ⟨.float y hy, fun rest hrest => ?_⟩
    rw [chars_float, List.append_assoc, scanNumber_numeral hvalid _ hrest, hread]

namespace Number

/-- The number that comes back when a number is written and read. -/
def reread (n : Number) : Number :=
  ((scanNumber n.chars).bind Prod.fst).getD n

end Number

theorem scanNumber_chars (n : Number) (hrest : EndsNumber rest) :
    scanNumber (n.chars ++ rest) = some (some n.reread, rest) := by
  obtain ⟨n', hn'⟩ := exists_scanNumber_chars n
  have halone := hn' [] (by simp [EndsNumber])
  rw [List.append_nil] at halone
  rw [hn' rest hrest, Number.reread, halone]
  rfl

theorem Number.reread_natural (k : UInt64) : (natural k).reread = natural k := by
  have hscan := scanNumber_natural k (show EndsNumber [] by simp [EndsNumber])
  rw [List.append_nil] at hscan
  rw [reread, hscan]
  rfl

theorem Number.reread_negative (k : Fin (1 <<< 63)) : (negative k).reread = negative k := by
  have hscan := scanNumber_negative k (show EndsNumber [] by simp [EndsNumber])
  rw [List.append_nil] at hscan
  rw [reread, hscan]
  rfl

end AgentChain.Json
