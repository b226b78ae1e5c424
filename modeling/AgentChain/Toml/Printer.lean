/-!
# Written TOML

Texts, arrays of texts and tables of such values. A text takes the plainest quoting that needs no
escapes: double quotes, then single quotes, then several lines in double quotes, then several lines
in single quotes. If none will do, it is escaped. An array of two or more texts takes a line for
each.
-/

namespace AgentChain.Toml

/-- The length of the longest run of a character, given the length of the run that is open. -/
def longestRun (c : Char) : (current : Nat) → List Char → Nat
  | current, [] => current
  | current, x :: rest =>
    if x = c then longestRun c (current + 1) rest else Nat.max current (longestRun c 0 rest)

/-- Whether a text holds a control other than a tab or a line end. -/
def hasControl (cs : List Char) : Bool :=
  cs.any fun c => (c.toNat < 0x20 && c ≠ '\t' && c ≠ '\n') || c.toNat = 0x7f

inductive Quoting where
  | basic
  | literal
  | blockBasic
  | blockLiteral
  deriving DecidableEq, Repr

def quotingOf (cs : List Char) : Quoting :=
  let control := hasControl cs
  let backslash := cs.contains '\\'
  let newline := cs.contains '\n'
  let double := longestRun '"' 0 cs
  let single := longestRun '\'' 0 cs
  if !control && !backslash && double = 0 && !newline then .basic
  else if !control && single = 0 && !newline then .literal
  else if !control && !backslash && double ≤ 2 then .blockBasic
  else if !control && single ≤ 2 then .blockLiteral
  else if newline then .blockBasic
  else .basic

def upperHexDigit (n : Nat) : Char :=
  if n < 10 then Char.ofNat (48 + n) else Char.ofNat (55 + n)

/-- The characters of a text in double quotes, where `quotes` quotes have just been written as they
are and at most `allowed` may stand in a row. Line ends stay if `block` is set. -/
def escapeFrom (block : Bool) (allowed : Nat) : (quotes : Nat) → List Char → List Char
  | _, [] => []
  | quotes, c :: rest =>
    if c = '"' then
      if quotes < allowed then '"' :: escapeFrom block allowed (quotes + 1) rest
      else '\\' :: '"' :: escapeFrom block allowed 0 rest
    else
      let written :=
        if c = '\\' then ['\\', '\\']
        else match c.toNat with
          | 0x08 => ['\\', 'b']
          | 0x09 => ['\\', 't']
          | 0x0a => if block then ['\n'] else ['\\', 'n']
          | 0x0c => ['\\', 'f']
          | 0x0d => ['\\', 'r']
          | n =>
            if n < 0x20 || n = 0x7f then
              ['\\', 'u', '0', '0', upperHexDigit (n / 16), upperHexDigit (n % 16)]
            else [c]
      written ++ escapeFrom block allowed 0 rest

def writeText (s : String) : String :=
  let cs := s.toList
  let start := if cs.contains '\n' then "\n" else ""
  match quotingOf cs with
  | .basic => "\"" ++ String.ofList (escapeFrom false 0 0 cs) ++ "\""
  | .literal => "'" ++ s ++ "'"
  | .blockBasic => "\"\"\"" ++ start ++ String.ofList (escapeFrom true 2 0 cs) ++ "\"\"\""
  | .blockLiteral => "'''" ++ start ++ s ++ "'''"

def writeArray : List String → String
  | [] => "[]"
  | [s] => "[" ++ writeText s ++ "]"
  | items => "[\n" ++ String.join (items.map fun s => "    " ++ writeText s ++ ",\n") ++ "]"

/-- The written form of a table: its header and a line for each key with its written value. -/
def writeTable (name : String) (entries : List (String × String)) : String :=
  "[" ++ name ++ "]\n" ++ String.join (entries.map fun e => e.1 ++ " = " ++ e.2 ++ "\n")

/-- The written form of tables, with an empty line between two of them. -/
def writeTables (tables : List (String × List (String × String))) : String :=
  "\n".intercalate (tables.map fun t => writeTable t.1 t.2)

end AgentChain.Toml
