/-!
# Timestamps

A moment in milliseconds since the start of 1970, universal time, and its calendar forms.
-/

namespace AgentChain

/-- A moment, in milliseconds since the start of 1970. -/
structure Timestamp where
  ms : Nat
  deriving DecidableEq, Repr

namespace Timestamp

/-- The year, the month and the day of a day counted from the start of 1970. The count is moved to
the first of March of the year zero, so that a leap day is the last day of a year, and is then
divided into cycles of four hundred years. -/
def dateOfDay (day : Nat) : Nat × Nat × Nat :=
  let z := day + 719468
  let cycle := z / 146097
  let dayOfCycle := z % 146097
  let yearOfCycle :=
    (dayOfCycle - dayOfCycle / 1460 + dayOfCycle / 36524 - dayOfCycle / 146096) / 365
  let dayOfYear := dayOfCycle - (365 * yearOfCycle + yearOfCycle / 4 - yearOfCycle / 100)
  let shifted := (5 * dayOfYear + 2) / 153
  let month := if shifted < 10 then shifted + 3 else shifted - 9
  let year := yearOfCycle + cycle * 400 + if month ≤ 2 then 1 else 0
  (year, month, dayOfYear - (153 * shifted + 2) / 5 + 1)

def padded (width n : Nat) : String :=
  let digits := Nat.toDigits 10 n
  String.ofList (List.replicate (width - digits.length) '0' ++ digits)

def dateText (t : Timestamp) (separator : String) : String :=
  let (year, month, day) := dateOfDay (t.ms / 86400000)
  padded 4 year ++ separator ++ padded 2 month ++ separator ++ padded 2 day

/-- The time of the day of a moment, with a separator between the parts. -/
def timeText (t : Timestamp) (separator : String) : String :=
  let seconds := t.ms / 1000 % 86400
  padded 2 (seconds / 3600) ++ separator ++ padded 2 (seconds / 60 % 60) ++ separator ++
    padded 2 (seconds % 60)

def seconds (t : Timestamp) : String :=
  t.dateText "-" ++ "T" ++ t.timeText ":" ++ "Z"

def millis (t : Timestamp) : String :=
  t.dateText "-" ++ "T" ++ t.timeText ":" ++ "." ++ padded 3 (t.ms % 1000) ++ "Z"

def compact (t : Timestamp) : String :=
  t.dateText "" ++ "T" ++ t.timeText "" ++ "Z"

end Timestamp

end AgentChain
