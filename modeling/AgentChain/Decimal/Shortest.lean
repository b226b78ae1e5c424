/-!
# The shortest decimal of a float

A finite float is `mantissa · 2 ^ exponent`. The reals that round to it form an interval around it,
whose ends belong to it when the mantissa is even. The shortest decimal is the one with the fewest
digits in that interval, and of those with that many digits the nearest to the float; of two that
are equally near, the one with the even last digit. All comparisons are made between natural
numbers.
-/

namespace AgentChain

/-- A number `digits · 10 ^ exponent`. -/
structure Decimal where
  digits : Nat
  exponent : Int

/-- A number `mantissa · 2 ^ exponent`. -/
structure Binary where
  mantissa : Nat
  exponent : Int
  /-- Whether the next smaller float is only half as far away as the next larger one. -/
  narrowBelow : Bool

namespace Binary

def ofFloat (x : Float) : Binary :=
  let bits := x.toBits.toNat
  let fraction : Nat := bits % 1 <<< 52
  let biased : Nat := bits >>> 52 % 1 <<< 11
  if biased = 0 then ⟨fraction, -1074, false⟩
  else ⟨fraction + 1 <<< 52, (biased : Int) - 1075, fraction = 0 && biased > 1⟩

def powerFraction (base : Nat) (exponent : Int) : Nat × Nat :=
  if 0 ≤ exponent then (base.pow exponent.toNat, 1) else (1, base.pow (-exponent).toNat)

/-- The exponent of the leading decimal digit of a number that is not zero. The estimate from the
binary logarithm is off by at most one. -/
def leadingExponent (b : Binary) : Int :=
  let estimate := ((Nat.log2 b.mantissa : Int) + b.exponent) * 30103 / 100000
  let reaches (e : Int) : Bool :=
    let (n, d) := powerFraction 2 b.exponent
    let (n', d') := powerFraction 10 e
    n' * d ≤ b.mantissa * n * d'
  if reaches (estimate + 1) then estimate + 1
  else if reaches estimate then estimate
  else estimate - 1

/-- The nearest multiple of `10 ^ power` that rounds to the float, if one of the two multiples
around the float does. Everything is counted in quarters of the mantissa's unit. -/
def onGrid? (b : Binary) (power : Int) : Option Nat :=
  let (n, d) := powerFraction 2 (b.exponent - 2)
  let (n', d') := powerFraction 10 power
  let unit := n' * d
  let scale := n * d'
  let value := 4 * b.mantissa * scale
  let low := (4 * b.mantissa - if b.narrowBelow then 1 else 2) * scale
  let high := (4 * b.mantissa + 2) * scale
  let closed := b.mantissa % 2 = 0
  let inside (c : Nat) : Bool :=
    if closed then low ≤ c * unit && c * unit ≤ high else low < c * unit && c * unit < high
  let below := value / unit
  let above := below + 1
  match inside below, inside above with
  | false, false => none
  | true, false => some below
  | false, true => some above
  | true, true =>
    let twice := 2 * value
    let middle := (below + above) * unit
    if twice < middle then some below
    else if middle < twice then some above
    else if below % 2 = 0 then some below else some above

def search (b : Binary) (lead : Int) : (count digits : Nat) → Decimal
  | 0, _ => ⟨b.mantissa, b.exponent⟩
  | count + 1, digits =>
    let power := lead - digits
    match b.onGrid? power with
    | some c => ⟨c, power⟩
    | none => search b lead count (digits + 1)

/-- Move trailing zeros into the exponent, at most `count` of them. -/
def dropZeros : (count : Nat) → Decimal → Decimal
  | 0, d => d
  | count + 1, d =>
    if d.digits % 10 = 0 then dropZeros count ⟨d.digits / 10, d.exponent + 1⟩ else d

/-- The shortest decimal of a number. Seventeen digits always suffice. -/
def shortest (b : Binary) : Decimal :=
  if b.mantissa = 0 then ⟨0, 0⟩ else dropZeros 20 (search b b.leadingExponent 17 0)

end Binary

end AgentChain
