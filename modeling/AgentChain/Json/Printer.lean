import AgentChain.Decimal.Layout
import AgentChain.Json.Value

/-!
# Written JSON

Two forms: compact, without blanks, one line; and indented by two blanks a level, with `[]` and `{}`
for what is empty. In strings only quotes, backslashes and the characters below the blank are
escaped. Members are written in the order in which the value holds them.
-/

namespace AgentChain.Json

/-- A hexadecimal digit, in small letters. -/
def hexDigit (n : Nat) : Char :=
  if n < 10 then Char.ofNat (48 + n) else Char.ofNat (87 + n)

/-- A character as it is written in a string. -/
def escaped (c : Char) : List Char :=
  if c = '"' then ['\\', '"']
  else if c = '\\' then ['\\', '\\']
  else if c.toNat < 0x20 then
    match c.toNat with
    | 0x08 => ['\\', 'b']
    | 0x09 => ['\\', 't']
    | 0x0a => ['\\', 'n']
    | 0x0c => ['\\', 'f']
    | 0x0d => ['\\', 'r']
    | n => ['\\', 'u', '0', '0', hexDigit (n / 16), hexDigit (n % 16)]
  else [c]

/-- A string with its quotes. -/
def quoted (s : String) : List Char :=
  '"' :: (s.toList.flatMap escaped ++ ['"'])

/-- A number as it is written; a float has a fraction or a power of ten. -/
def Number.chars : Number → List Char
  | .natural n => Nat.toDigits 10 n.toNat
  | .negative n => '-' :: Nat.toDigits 10 (n.val + 1)
  | .float x _ => (Decimal.Layout.document.render x).toList

namespace Value

mutual

/-- A value without blanks. -/
def compactChars : Value → List Char
  | .null => ['n', 'u', 'l', 'l']
  | .bool true => ['t', 'r', 'u', 'e']
  | .bool false => ['f', 'a', 'l', 's', 'e']
  | .number n => n.chars
  | .string s => quoted s
  | .array items => '[' :: (compactItems items ++ [']'])
  | .object members => '\x7b' :: (compactMembers members ++ ['\x7d'])

/-- The items of an array, with commas in between. -/
def compactItems : List Value → List Char
  | [] => []
  | [v] => compactChars v
  | v :: w :: rest => compactChars v ++ ',' :: compactItems (w :: rest)

/-- The members of an object, with commas in between. -/
def compactMembers : List (String × Value) → List Char
  | [] => []
  | [(name, v)] => quoted name ++ ':' :: compactChars v
  | (name, v) :: m :: rest =>
    quoted name ++ ':' :: (compactChars v ++ ',' :: compactMembers (m :: rest))

end

/-- The compact form of a value. -/
def compact (v : Value) : String :=
  String.ofList v.compactChars

/-- The end of a line and the blanks before the next one. -/
def newLine (level : Nat) : List Char :=
  '\n' :: List.replicate (2 * level) ' '

mutual

/-- A value that stands at a level of the indented form. -/
def prettyChars (level : Nat) : Value → List Char
  | .array (v :: rest) =>
    '[' :: (newLine (level + 1) ++ prettyItems (level + 1) (v :: rest) ++ newLine level ++ [']'])
  | .object (m :: rest) =>
    '\x7b' :: (newLine (level + 1) ++ prettyMembers (level + 1) (m :: rest) ++ newLine level ++
      ['\x7d'])
  | .array [] => ['[', ']']
  | .object [] => ['\x7b', '\x7d']
  | .null => ['n', 'u', 'l', 'l']
  | .bool true => ['t', 'r', 'u', 'e']
  | .bool false => ['f', 'a', 'l', 's', 'e']
  | .number n => n.chars
  | .string s => quoted s

/-- The items of an array, each on its own line. -/
def prettyItems (level : Nat) : List Value → List Char
  | [] => []
  | [v] => prettyChars level v
  | v :: w :: rest =>
    prettyChars level v ++ ',' :: (newLine level ++ prettyItems level (w :: rest))

/-- The members of an object, each on its own line. -/
def prettyMembers (level : Nat) : List (String × Value) → List Char
  | [] => []
  | [(name, v)] => quoted name ++ ':' :: ' ' :: prettyChars level v
  | (name, v) :: m :: rest =>
    quoted name ++ ':' :: ' ' :: (prettyChars level v ++ ',' ::
      (newLine level ++ prettyMembers level (m :: rest)))

end

/-- The indented form of a value. -/
def pretty (v : Value) : String :=
  String.ofList (v.prettyChars 0)

end Value

end AgentChain.Json
