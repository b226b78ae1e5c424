/-!
# Reading a written number

A written number is a sign, a whole part, and perhaps a fraction and a power of ten. It is an exact
integer when it has neither of the last two and fits sixty-four bits. Otherwise it is a float, read
with two roundings: the leading digits that fit sixty-four bits are rounded to a float, and that is
multiplied or divided by a power of ten.
-/

namespace AgentChain.Decimal

/-- The parts of a written number; a part that is left out is empty, as is a power of ten of zero.
-/
structure Written where
  negative : Bool
  whole : List Nat
  fraction : List Nat
  power : Int
  /-- Whether the number has neither fraction nor power of ten. -/
  integral : Bool

def digitsValue (digits : List Nat) : Nat :=
  digits.foldl (fun acc d => acc * 10 + d) 0

/-- Take the digits of a whole part into a significand as long as it fits sixty-four bits; the
second component is the number of digits left. -/
def takeWhole : (significand : Nat) → List Nat → Nat × Nat
  | s, [] => (s, 0)
  | s, d :: rest =>
    if s * 10 + d < UInt64.size then takeWhole (s * 10 + d) rest else (s, rest.length + 1)

/-- Take the digits of a fraction into a significand as long as it fits sixty-four bits; the second
component is the number of digits taken. -/
def takeFraction : (significand taken : Nat) → List Nat → Nat × Nat
  | s, taken, [] => (s, taken)
  | s, taken, d :: rest =>
    if s * 10 + d < UInt64.size then takeFraction (s * 10 + d) (taken + 1) rest else (s, taken)

def tenTo (n : Nat) : Float :=
  Float.ofScientific 1 false n

/-- A significand times a power of ten. The largest power used in one step is that of the largest
float, and two steps down reach zero. -/
def scaled? (significand : Nat) (power : Int) : Option Float :=
  let x := (UInt64.ofNat significand).toFloat
  if power > 308 then
    if x == 0 then some x else none
  else if power ≥ 0 then
    let y := x * tenTo power.toNat
    if y.isInf then none else some y
  else if power ≥ -308 then some (x / tenTo (-power).toNat)
  else if power ≥ -616 then some (x / tenTo 308 / tenTo (-power - 308).toNat)
  else some 0

namespace Written

def float? (w : Written) : Option Float :=
  let (s, left) := takeWhole 0 w.whole
  let (s, taken) := takeFraction s 0 w.fraction
  (scaled? s (w.power + left - taken)).map fun x => if w.negative then -x else x

/-- Whether the exact value is beyond the largest float, that is, at least halfway from there to the
next power of two. Only a value whose digits reach near that place is worked out. -/
def isTooLarge (w : Written) : Bool :=
  let digits := (w.whole ++ w.fraction).dropWhile (· = 0)
  let n := digitsValue digits
  let power : Int := w.power - w.fraction.length
  let reach : Int := digits.length + power
  if n = 0 || reach < 309 then false
  else if 309 < reach then true
  else (1 <<< 1024 - 1 <<< 970) * Nat.pow 10 (-power).toNat ≤ n * Nat.pow 10 power.toNat

def natural (w : Written) : Nat :=
  digitsValue w.whole

end Written

end AgentChain.Decimal
