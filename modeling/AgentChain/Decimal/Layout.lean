import AgentChain.Decimal.Shortest

/-!
# Written floats

The digits of a float are those of its shortest decimal; a layout says where they are put. Documents
write positional numbers for exponents from -5 to 15 and keep a fraction on whole numbers; messages
write every number positionally and whole numbers without a fraction.
-/

namespace AgentChain.Decimal

structure Layout where
  /-- Whether a number whose leading digit has this exponent is written positionally. -/
  positional : Int → Bool
  /-- What follows the digits of a whole number that is written positionally. -/
  wholeEnd : List Char

namespace Layout

/-- The form in documents: `24.0`, `0.00001`, `1e+16`. -/
def document : Layout where
  positional e := -5 ≤ e && e ≤ 15
  wholeEnd := ['.', '0']

def message : Layout where
  positional _ := true
  wholeEnd := []

def digitsOf (n : Nat) : List Char :=
  Nat.toDigits 10 n

def signedDigits (e : Int) : List Char :=
  if e < 0 then '-' :: digitsOf e.natAbs else '+' :: digitsOf e.natAbs

def chars (l : Layout) (d : Decimal) : List Char :=
  let digits := digitsOf d.digits
  let lead := d.exponent + digits.length - 1
  if l.positional lead then
    if 0 ≤ d.exponent then digits ++ List.replicate d.exponent.toNat '0' ++ l.wholeEnd
    else if 0 ≤ lead then
      digits.take (lead.toNat + 1) ++ '.' :: digits.drop (lead.toNat + 1)
    else '0' :: '.' :: (List.replicate (-lead - 1).toNat '0' ++ digits)
  else
    match digits with
    | [] => []
    | first :: [] => first :: 'e' :: signedDigits lead
    | first :: rest => first :: '.' :: (rest ++ 'e' :: signedDigits lead)

def render (l : Layout) (x : Float) : String :=
  if x.isNaN then "NaN"
  else
    let magnitude :=
      if x.isInf then "inf" else String.ofList (l.chars (Binary.ofFloat x).shortest)
    if x.toBits.toNat ≥ 1 <<< 63 then "-" ++ magnitude else magnitude

end Layout

end AgentChain.Decimal
