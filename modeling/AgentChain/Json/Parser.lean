import AgentChain.Decimal.Reading
import AgentChain.Document.Basic

/-!
# Reading JSON

The strict grammar of JSON: no trailing characters, no raw control characters in strings, no leading
zeros. Containers may be nested 127 levels deep; a deeper one has no value.
-/

namespace AgentChain.Json

def isSpace (c : Char) : Bool :=
  c = ' ' || c = '\t' || c = '\n' || c = '\r'

def skipSpace (cs : List Char) : List Char :=
  cs.dropWhile isSpace

/-! ### Strings -/

def hexValue? (c : Char) : Option Nat :=
  if '0' ≤ c && c ≤ '9' then some (c.toNat - 48)
  else if 'a' ≤ c && c ≤ 'f' then some (c.toNat - 87)
  else if 'A' ≤ c && c ≤ 'F' then some (c.toNat - 55)
  else none

def hexUnit? (a b c d : Char) : Option Nat :=
  match hexValue? a, hexValue? b, hexValue? c, hexValue? d with
  | some a, some b, some c, some d => some (((a * 16 + b) * 16 + c) * 16 + d)
  | _, _, _, _ => none

/-- A part of a string: a character, or a code unit that was written as an escape. -/
inductive Piece where
  | char (c : Char)
  | unit (n : Nat)

def shortEscape? (c : Char) : Option Char :=
  match c with
  | '"' => some '"'
  | '\\' => some '\\'
  | '/' => some '/'
  | 'b' => some '\x08'
  | 'f' => some '\x0c'
  | 'n' => some '\n'
  | 'r' => some '\r'
  | 't' => some '\t'
  | _ => none

/-- The parts of a string up to its closing quote, and the text after the quote. -/
def scanPieces : List Char → Option (List Piece × List Char)
  | [] => none
  | '"' :: rest => some ([], rest)
  | '\\' :: 'u' :: a :: b :: c :: d :: rest =>
    (hexUnit? a b c d).bind fun n => (scanPieces rest).map fun (ps, r) => (.unit n :: ps, r)
  | '\\' :: c :: rest =>
    (shortEscape? c).bind fun c => (scanPieces rest).map fun (ps, r) => (.char c :: ps, r)
  | c :: rest =>
    if c.toNat < 0x20 || c = '\\' then none
    else (scanPieces rest).map fun (ps, r) => (.char c :: ps, r)

/-- The characters of a string. Two code units of a surrogate pair make one character, and half of a
pair makes none. -/
def joinPieces : List Piece → Option (List Char)
  | [] => some []
  | .char c :: rest => (joinPieces rest).map (c :: ·)
  | .unit n :: .unit m :: rest =>
    if 0xd800 ≤ n && n < 0xdc00 then
      if 0xdc00 ≤ m && m < 0xe000 then
        (joinPieces rest).map (Char.ofNat (0x10000 + (n - 0xd800) * 0x400 + (m - 0xdc00)) :: ·)
      else none
    else if 0xdc00 ≤ n && n < 0xe000 then none
    else (joinPieces (.unit m :: rest)).map (Char.ofNat n :: ·)
  | .unit n :: rest =>
    if 0xd800 ≤ n && n < 0xe000 then none else (joinPieces rest).map (Char.ofNat n :: ·)

/-- A string after its opening quote, and the text after it. The string has no value when half of a
surrogate pair stands in it. -/
def scanString (cs : List Char) : Option (Option String × List Char) :=
  (scanPieces cs).map fun (ps, rest) => ((joinPieces ps).map String.ofList, rest)

/-! ### Numbers -/

def digitValue (c : Char) : Nat :=
  c.toNat - 48

def isDigit (c : Char) : Bool :=
  '0' ≤ c && c ≤ '9'

def scanDigits (cs : List Char) : List Nat × List Char :=
  ((cs.takeWhile isDigit).map digitValue, cs.dropWhile isDigit)

/-- The whole part of a number: a zero alone, or digits that do not start with one. -/
def scanWhole (cs : List Char) : Option (List Nat × List Char) :=
  match scanDigits cs with
  | ([], _) => none
  | (0 :: _ :: _, _) => none
  | (digits, rest) => some (digits, rest)

def scanFraction : List Char → Option (List Nat × List Char)
  | '.' :: cs =>
    match scanDigits cs with
    | ([], _) => none
    | (digits, rest) => some (digits, rest)
  | cs => some ([], cs)

def scanPower : List Char → Option (Option Int × List Char)
  | c :: cs =>
    if c = 'e' || c = 'E' then
      let (negative, cs) := match cs with
        | '+' :: rest => (false, rest)
        | '-' :: rest => (true, rest)
        | rest => (false, rest)
      match scanDigits cs with
      | ([], _) => none
      | (digits, rest) =>
        let n : Int := Decimal.digitsValue digits
        some (some (if negative then -n else n), rest)
    else some (none, c :: cs)
  | [] => some (none, [])

def Number.ofWritten? (w : Decimal.Written) : Option Number :=
  if w.integral then
    let n := w.natural
    if !w.negative && n < UInt64.size then some (.natural (UInt64.ofNat n))
    else if h : w.negative ∧ 0 < n ∧ n ≤ 1 <<< 63 then some (.negative ⟨n - 1, by omega⟩)
    else w.float?.bind Number.ofFloat?
  else w.float?.bind Number.ofFloat?

/-- A number and the text after it. The number has no value when it is beyond the largest float. -/
def scanNumber (cs : List Char) : Option (Option Number × List Char) :=
  let (negative, cs) := match cs with
    | '-' :: rest => (true, rest)
    | rest => (false, rest)
  (scanWhole cs).bind fun (whole, afterWhole) =>
    (scanFraction afterWhole).bind fun (fraction, afterFraction) =>
      (scanPower afterFraction).map fun (power, rest) =>
        (Number.ofWritten? ⟨negative, whole, fraction, power.getD 0,
          fraction.isEmpty && power.isNone⟩, rest)

/-! ### Values -/

def dropWord? (word : List Char) (cs : List Char) : Option (List Char) :=
  if word.isPrefixOf cs then some (cs.drop word.length) else none

/-- A container with its entries, unless it is nested too deeply to have a value. -/
def within (room : Nat) (d : Document) : Document :=
  if room = 0 then .unreadable else d

/-- The table of scanned entries; a name without a value spoils the table. -/
def tableOf (entries : List (Option String × Document)) : Document :=
  if entries.all fun e => e.1.isSome then
    .table (entries.map fun e => (e.1.getD "", e.2))
  else .unreadable

mutual

/-- A value and the text after it; `room` is the number of container levels that still have a value.
The first argument bounds the nesting of the calls; twice the length of the text is enough. -/
def scanValue : (fuel room : Nat) → List Char → Option (Document × List Char)
  | 0, _, _ => none
  | fuel + 1, room, cs =>
    match skipSpace cs with
    | '\x7b' :: rest =>
      match skipSpace rest with
      | '\x7d' :: rest => some (within room (.table []), rest)
      | rest => (scanMembers fuel (room - 1) rest).map fun (es, r) => (within room (tableOf es), r)
    | '[' :: rest =>
      match skipSpace rest with
      | ']' :: rest => some (within room (.list []), rest)
      | rest => (scanItems fuel (room - 1) rest).map fun (ds, r) => (within room (.list ds), r)
    | '"' :: rest =>
      (scanString rest).map fun (s, r) => (s.elim .unreadable .text, r)
    | 'n' :: rest => (dropWord? ['u', 'l', 'l'] rest).map (Document.null, ·)
    | 't' :: rest => (dropWord? ['r', 'u', 'e'] rest).map (Document.bool true, ·)
    | 'f' :: rest => (dropWord? ['a', 'l', 's', 'e'] rest).map (Document.bool false, ·)
    | rest => (scanNumber rest).map fun (n, r) => (n.elim .unreadable .number, r)

/-- The items of an array up to its closing bracket, at least one. -/
def scanItems : (fuel room : Nat) → List Char → Option (List Document × List Char)
  | 0, _, _ => none
  | fuel + 1, room, cs =>
    (scanValue fuel room cs).bind fun (d, rest) =>
      match skipSpace rest with
      | ',' :: rest => (scanItems fuel room rest).map fun (ds, r) => (d :: ds, r)
      | ']' :: rest => some ([d], rest)
      | _ => none

/-- The members of an object up to its closing brace, at least one. -/
def scanMembers : (fuel room : Nat) → List Char →
    Option (List (Option String × Document) × List Char)
  | 0, _, _ => none
  | fuel + 1, room, cs =>
    match skipSpace cs with
    | '"' :: rest =>
      (scanString rest).bind fun (name, rest) =>
        match skipSpace rest with
        | ':' :: rest =>
          (scanValue fuel room rest).bind fun (d, rest) =>
            match skipSpace rest with
            | ',' :: rest => (scanMembers fuel room rest).map fun (es, r) => ((name, d) :: es, r)
            | '\x7d' :: rest => some ([(name, d)], rest)
            | _ => none
        | _ => none
    | _ => none

end

def depthLimit : Nat := 127

/-- The document of a text that holds one value and nothing else. -/
def parseChars? (cs : List Char) : Option Document :=
  match scanValue (2 * cs.length + 2) depthLimit cs with
  | some (d, rest) => if (skipSpace rest).isEmpty then some d else none
  | none => none

def parse? (s : String) : Option Document :=
  parseChars? s.toList

def read? (s : String) : Option Value :=
  (parse? s).bind Document.value?

end AgentChain.Json
