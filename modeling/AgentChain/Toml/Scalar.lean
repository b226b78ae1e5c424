import AgentChain.Json.Parser

/-!
# Scalars of a TOML text

Texts in their four quotings, numbers, truth values, dates and times. A date or time has no plain
value; it is kept as a table with one reserved name, which no record declares.
-/

namespace AgentChain.Toml

/-! ### Texts -/

/-- Whether a character may stand in a text or a comment as it is. -/
def isPlain (c : Char) : Bool :=
  c = '\t' || (0x20 ≤ c.toNat && c.toNat ≠ 0x7f)

def charOf? (n : Nat) : Option Char :=
  if n.isValidChar then some (Char.ofNat n) else none

def hexNumber? (cs : List Char) : Option Nat :=
  cs.foldl (fun acc c => acc.bind fun n => (Json.hexValue? c).map fun d => n * 16 + d) (some 0)

def scanEscape (cs : List Char) : Option (Char × List Char) :=
  let numbered (width : Nat) (rest : List Char) : Option (Char × List Char) :=
    if (rest.take width).length = width then
      ((hexNumber? (rest.take width)).bind charOf?).map (·, rest.drop width)
    else none
  match cs with
  | 'b' :: rest => some ('\x08', rest)
  | 't' :: rest => some ('\t', rest)
  | 'n' :: rest => some ('\n', rest)
  | 'f' :: rest => some ('\x0c', rest)
  | 'r' :: rest => some ('\r', rest)
  | 'e' :: rest => some ('\x1b', rest)
  | '"' :: rest => some ('"', rest)
  | '\\' :: rest => some ('\\', rest)
  | 'x' :: rest => numbered 2 rest
  | 'u' :: rest => numbered 4 rest
  | 'U' :: rest => numbered 8 rest
  | _ => none

/-- A text in double quotes after its opening quote, and the text after it. -/
def scanBasic : (fuel : Nat) → List Char → Option (List Char × List Char)
  | 0, _ => none
  | _, [] => none
  | _, '"' :: rest => some ([], rest)
  | fuel + 1, '\\' :: rest =>
    (scanEscape rest).bind fun (c, rest) => (scanBasic fuel rest).map fun (cs, r) => (c :: cs, r)
  | fuel + 1, c :: rest =>
    if isPlain c then (scanBasic fuel rest).map fun (cs, r) => (c :: cs, r) else none

/-- A text in single quotes after its opening quote, and the text after it. -/
def scanLiteral : List Char → Option (List Char × List Char)
  | [] => none
  | '\'' :: rest => some ([], rest)
  | c :: rest => if isPlain c then (scanLiteral rest).map fun (cs, r) => (c :: cs, r) else none

def dropNewline? : List Char → Option (List Char)
  | '\n' :: rest => some rest
  | '\r' :: '\n' :: rest => some rest
  | _ => none

def dropFirstNewline (cs : List Char) : List Char :=
  (dropNewline? cs).getD cs

def newline? : List Char → Option (List Char)
  | '\n' :: _ => some ['\n']
  | '\r' :: '\n' :: _ => some ['\r', '\n']
  | _ => none

def isSpace (c : Char) : Bool :=
  c = ' ' || c = '\t'

def dropBlank : List Char → List Char
  | [] => []
  | '\r' :: '\n' :: rest => dropBlank rest
  | c :: rest => if isSpace c || c = '\n' then dropBlank rest else c :: rest

/-- The text after a backslash at the end of a line: all blanks and line ends after it are dropped.
-/
def dropLineEnd? (cs : List Char) : Option (List Char) :=
  (dropNewline? (cs.dropWhile isSpace)).map dropBlank

/-- The end of a text of several lines: up to two quotes, then three that close it. -/
def closing? (quote : Char) (cs : List Char) : Option (List Char × List Char) :=
  let quotes := cs.takeWhile (· = quote)
  if quotes.length < 3 then none
  else
    let kept := Nat.min (quotes.length - 3) 2
    some (List.replicate kept quote, cs.drop (kept + 3))

/-- A text of several lines in double quotes after its opening quotes, and the text after it. Line
ends are kept as they are written. -/
def scanBlockBasic : (fuel : Nat) → List Char → Option (List Char × List Char)
  | 0, _ => none
  | fuel + 1, cs =>
    match closing? '"' cs with
    | some found => some found
    | none =>
      match cs with
      | [] => none
      | '\\' :: rest =>
        match dropLineEnd? rest with
        | some rest => scanBlockBasic fuel rest
        | none =>
          (scanEscape rest).bind fun (c, rest) =>
            (scanBlockBasic fuel rest).map fun (cs, r) => (c :: cs, r)
      | c :: rest =>
        match newline? (c :: rest) with
        | some ending =>
          (scanBlockBasic fuel ((c :: rest).drop ending.length)).map fun (cs, r) =>
            (ending ++ cs, r)
        | none =>
          if isPlain c then (scanBlockBasic fuel rest).map fun (cs, r) => (c :: cs, r) else none

/-- A text of several lines in single quotes after its opening quotes, and the text after it. Line
ends are kept as they are written. -/
def scanBlockLiteral : (fuel : Nat) → List Char → Option (List Char × List Char)
  | 0, _ => none
  | fuel + 1, cs =>
    match closing? '\'' cs with
    | some found => some found
    | none =>
      match cs with
      | [] => none
      | c :: rest =>
        match newline? (c :: rest) with
        | some ending =>
          (scanBlockLiteral fuel ((c :: rest).drop ending.length)).map fun (cs, r) =>
            (ending ++ cs, r)
        | none =>
          if isPlain c then (scanBlockLiteral fuel rest).map fun (cs, r) => (c :: cs, r) else none

/-! ### Numbers -/

/-- A run of digits in which single underscores may stand between two digits. -/
def grouped? (isDigit : Char → Bool) : List Char → Option (List Char)
  | [] => none
  | [c] => if isDigit c then some [c] else none
  | c :: '_' :: d :: rest =>
    if isDigit c && isDigit d then (grouped? isDigit (d :: rest)).map (c :: ·) else none
  | c :: rest => if isDigit c then (grouped? isDigit rest).map (c :: ·) else none

/-- An integer; one beyond sixty-four bits has no value, and one beyond a hundred and twenty-eight
is no integer. -/
def integer? (negative : Bool) (n : Nat) : Option Document :=
  if h : negative ∧ 0 < n then
    if h' : n ≤ 1 <<< 63 then some (.number (.negative ⟨n - 1, by omega⟩))
    else if n ≤ 1 <<< 127 then some .unreadable
    else none
  else if n < UInt64.size then some (.number (.natural (UInt64.ofNat n)))
  else if n < 1 <<< 128 then some .unreadable
  else none

def valueIn (base : Nat) (digits : List Char) : Nat :=
  digits.foldl (fun acc c => acc * base + (Json.hexValue? c).getD 0) 0

/-- The whole part of a decimal number: a zero alone, or digits that do not start with one. -/
def whole? (cs : List Char) : Option (List Char) :=
  match grouped? Json.isDigit cs with
  | some ('0' :: _ :: _) => none
  | other => other

/-- A number with a fraction or a power of ten; one beyond the largest float is no number. -/
def float? (negative : Bool) (cs : List Char) : Option Document :=
  let beforePower := cs.takeWhile fun c => c ≠ 'e' && c ≠ 'E'
  let powerPart := cs.dropWhile fun c => c ≠ 'e' && c ≠ 'E'
  let wholePart := beforePower.takeWhile (· ≠ '.')
  let fractionPart := beforePower.dropWhile (· ≠ '.')
  let fraction? : Option (List Char) := match fractionPart with
    | [] => some []
    | _ :: digits => grouped? Json.isDigit digits
  let power? : Option Int := match powerPart with
    | [] => some 0
    | _ :: '-' :: digits => (grouped? Json.isDigit digits).map fun ds => -(valueIn 10 ds : Int)
    | _ :: '+' :: digits => (grouped? Json.isDigit digits).map fun ds => (valueIn 10 ds : Int)
    | _ :: digits => (grouped? Json.isDigit digits).map fun ds => (valueIn 10 ds : Int)
  match whole? wholePart, fraction?, power? with
  | some whole, some fraction, some power =>
    let written : Decimal.Written :=
      ⟨negative, whole.map Json.digitValue, fraction.map Json.digitValue, power, false⟩
    if written.isTooLarge then none
    else some ((written.float?.bind Json.Number.ofFloat?).elim .unreadable .number)
  | _, _, _ => none

def decimal? (negative : Bool) (cs : List Char) : Option Document :=
  match cs with
  | ['i', 'n', 'f'] => some .unreadable
  | ['n', 'a', 'n'] => some .unreadable
  | _ =>
    if cs.any fun c => c = '.' || c = 'e' || c = 'E' then float? negative cs
    else (whole? cs).bind fun digits => integer? negative (valueIn 10 digits)

def number? : List Char → Option Document
  | '0' :: 'x' :: digits =>
    (grouped? (fun c => (Json.hexValue? c).isSome) digits).bind fun ds =>
      integer? false (valueIn 16 ds)
  | '0' :: 'o' :: digits =>
    (grouped? (fun c => '0' ≤ c && c ≤ '7') digits).bind fun ds => integer? false (valueIn 8 ds)
  | '0' :: 'b' :: digits =>
    (grouped? (fun c => c = '0' || c = '1') digits).bind fun ds => integer? false (valueIn 2 ds)
  | '+' :: cs => decimal? false cs
  | '-' :: cs => decimal? true cs
  | cs => decimal? false cs

/-! ### Dates and times -/

/-- The value of two digits at the start of a text, if it is at most `bound`, and the text after it.
-/
def twoDigits? (bound : Nat) : List Char → Option (Nat × List Char)
  | a :: b :: rest =>
    let n := Json.digitValue a * 10 + Json.digitValue b
    if Json.isDigit a && Json.isDigit b && n ≤ bound then some (n, rest) else none
  | _ => none

def daysIn (year month : Nat) : Nat :=
  if month = 2 then
    if year % 4 = 0 ∧ (year % 100 ≠ 0 ∨ year % 400 = 0) then 29 else 28
  else if month = 4 ∨ month = 6 ∨ month = 9 ∨ month = 11 then 30
  else 31

def dropDate? (cs : List Char) : Option (List Char) :=
  match cs with
  | a :: b :: c :: d :: '-' :: rest =>
    if [a, b, c, d].all Json.isDigit then
      let year := valueIn 10 [a, b, c, d]
      match twoDigits? 12 rest with
      | some (month, '-' :: rest) =>
        match twoDigits? (daysIn year month) rest with
        | some (day, rest) => if 1 ≤ month && 1 ≤ day then some rest else none
        | none => none
      | _ => none
    else none
  | _ => none

def dropSecondFraction? : List Char → Option (List Char)
  | '.' :: rest =>
    if (rest.takeWhile Json.isDigit).isEmpty then none else some (rest.dropWhile Json.isDigit)
  | rest => some rest

/-- The text after a time of the day. The seconds may be left out. -/
def dropTime? (cs : List Char) : Option (List Char) :=
  match twoDigits? 23 cs with
  | some (_, ':' :: rest) =>
    match twoDigits? 59 rest with
    | some (_, ':' :: rest) => (twoDigits? 60 rest).bind fun (_, rest) => dropSecondFraction? rest
    | some (_, rest) => some rest
    | none => none
  | _ => none

def isWhole {α : Type} : Option (α × List Char) → Bool
  | some (_, []) => true
  | _ => false

/-- Whether a text is an offset from the universal time, or nothing. -/
def isOffset (cs : List Char) : Bool :=
  match cs with
  | [] => true
  | ['Z'] => true
  | ['z'] => true
  | sign :: rest =>
    (sign = '+' || sign = '-') &&
      match twoDigits? 23 rest with
      | some (_, ':' :: rest) => isWhole (twoDigits? 59 rest)
      | _ => false

def isDateTime (cs : List Char) : Bool :=
  match dropDate? cs with
  | some [] => true
  | some (c :: rest) =>
    (c = 'T' || c = 't' || c = ' ') &&
      match dropTime? rest with
      | some offset => isOffset offset
      | none => false
  | none => dropTime? cs = some []

def dateTimeName : String :=
  "$__toml_private_datetime"

/-! ### Scalars without quotes -/

def bare? (cs : List Char) : Option Document :=
  if cs = "true".toList then some (.bool true)
  else if cs = "false".toList then some (.bool false)
  else if isDateTime cs then some (.table [(dateTimeName, .text (String.ofList cs))])
  else number? cs

def isBareScalar (c : Char) : Bool :=
  Json.isDigit c || ('a' ≤ c && c ≤ 'z') || ('A' ≤ c && c ≤ 'Z') || c = '_' || c = '+' || c = '-' ||
    c = '.' || c = ':'

/-- A scalar without quotes and the text after it; a blank may stand between a date and a time. -/
def scanBare (cs : List Char) : Option (Document × List Char) :=
  let word := cs.takeWhile isBareScalar
  let rest := cs.dropWhile isBareScalar
  match dropDate? word, rest with
  | some [], ' ' :: a :: more =>
    if Json.isDigit a then
      let time := (a :: more).takeWhile isBareScalar
      (bare? (word ++ ' ' :: time)).map (·, (a :: more).dropWhile isBareScalar)
    else (bare? word).map (·, rest)
  | _, _ => (bare? word).map (·, rest)

end AgentChain.Toml
