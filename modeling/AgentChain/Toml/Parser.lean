import AgentChain.Toml.Scalar
import AgentChain.Toml.Tree

/-!
# Reading TOML

A text is a sequence of lines: headers, keys with values, comments. Arrays and inline tables may run
over several lines, also between a key and its value, and nest eighty levels deep. A key has at most
eighty parts.
-/

namespace AgentChain.Toml

def isBareKey (c : Char) : Bool :=
  Json.isDigit c || ('a' ≤ c && c ≤ 'z') || ('A' ≤ c && c ≤ 'Z') || c = '_' || c = '-'

def scanKeyPart (cs : List Char) : Option (String × List Char) :=
  match cs with
  | '"' :: rest => (scanBasic (rest.length + 1) rest).map fun (s, r) => (String.ofList s, r)
  | '\'' :: rest => (scanLiteral rest).map fun (s, r) => (String.ofList s, r)
  | _ =>
    let word := cs.takeWhile isBareKey
    if word.isEmpty then none else some (String.ofList word, cs.dropWhile isBareKey)

/-- The parts of a dotted key, at most `room`, and the text after the blanks that follow it. -/
def scanKeyParts : (room : Nat) → List Char → Option (List String × List Char)
  | 0, _ => none
  | room + 1, cs =>
    (scanKeyPart (cs.dropWhile isSpace)).bind fun (part, rest) =>
      match rest.dropWhile isSpace with
      | '.' :: rest => (scanKeyParts room rest).map fun (parts, r) => (part :: parts, r)
      | rest => some ([part], rest)

/-- The most parts of a key, and the most container levels within a value. -/
def depthLimit : Nat := 80

def scanKey (cs : List Char) : Option (List String × List Char) :=
  scanKeyParts depthLimit cs

def dropComment? : List Char → Option (List Char)
  | [] => some []
  | c :: rest =>
    if (dropNewline? (c :: rest)).isSome then some (c :: rest)
    else if isPlain c then dropComment? rest
    else none

def skipLines : (fuel : Nat) → List Char → Option (List Char)
  | 0, _ => none
  | fuel + 1, cs =>
    match cs.dropWhile isSpace with
    | '#' :: rest => (dropComment? rest).bind (skipLines fuel)
    | rest =>
      match dropNewline? rest with
      | some rest => skipLines fuel rest
      | none => some rest

/-- The text after the blanks, the comment and the end of a line. -/
def endLine (cs : List Char) : Option (List Char) :=
  let finish (rest : List Char) : Option (List Char) :=
    if rest.isEmpty then some [] else dropNewline? rest
  match cs.dropWhile isSpace with
  | '#' :: rest => (dropComment? rest).bind finish
  | rest => finish rest

mutual

/-- A value and the text after it; `room` is the number of container levels left. -/
def scanValue : (fuel room : Nat) → List Char → Option (Document × List Char)
  | 0, _, _ => none
  | fuel + 1, room, cs =>
    let text (found : Option (List Char × List Char)) : Option (Document × List Char) :=
      found.map fun (s, r) => (.text (String.ofList s), r)
    match cs with
    | '"' :: '"' :: '"' :: rest => text (scanBlockBasic (rest.length + 1) (dropFirstNewline rest))
    | '"' :: rest => text (scanBasic (rest.length + 1) rest)
    | '\'' :: '\'' :: '\'' :: rest =>
      text (scanBlockLiteral (rest.length + 1) (dropFirstNewline rest))
    | '\'' :: rest => text (scanLiteral rest)
    | '[' :: rest =>
      if room = 0 then none
      else (scanItems fuel (room - 1) rest).map fun (ds, r) => (.list ds, r)
    | '\x7b' :: rest =>
      if room = 0 then none
      else (scanEntries fuel (room - 1) [] rest).map fun (es, r) => (document es, r)
    | _ => scanBare cs

def scanItems : (fuel room : Nat) → List Char → Option (List Document × List Char)
  | 0, _, _ => none
  | fuel + 1, room, cs =>
    (skipLines (cs.length + 1) cs).bind fun cs =>
      match cs with
      | ']' :: rest => some ([], rest)
      | _ =>
        (scanValue fuel room cs).bind fun (d, rest) =>
          (skipLines (rest.length + 1) rest).bind fun rest =>
            match rest with
            | ',' :: rest => (scanItems fuel room rest).map fun (ds, r) => (d :: ds, r)
            | ']' :: rest => some ([d], rest)
            | _ => none

/-- The entries of an inline table up to its closing brace, after those found before. -/
def scanEntries : (fuel room : Nat) → Entries → List Char → Option (Entries × List Char)
  | 0, _, _, _ => none
  | fuel + 1, room, es, cs =>
    (skipLines (cs.length + 1) cs).bind fun cs =>
      match cs with
      | '\x7d' :: rest => some (es, rest)
      | _ =>
        (scanKey cs).bind fun (key, rest) =>
          (skipLines (rest.length + 1) rest).bind fun rest =>
            match rest with
            | '=' :: rest =>
              (skipLines (rest.length + 1) rest).bind fun rest =>
                (scanValue fuel room rest).bind fun (d, rest) =>
                  (assign d key es).bind fun es =>
                    (skipLines (rest.length + 1) rest).bind fun rest =>
                      match rest with
                      | ',' :: rest => scanEntries fuel room es rest
                      | '\x7d' :: rest => some (es, rest)
                      | _ => none
            | _ => none

end

def scanLines : (fuel : Nat) → (header : List String) → Entries → List Char → Option Entries
  | 0, _, _, _ => none
  | fuel + 1, header, es, cs =>
    (skipLines (cs.length + 1) cs).bind fun cs =>
      match cs with
      | [] => some es
      | '[' :: '[' :: rest =>
        (scanKey rest).bind fun (path, rest) =>
          match rest with
          | ']' :: ']' :: rest =>
            (endLine rest).bind fun rest =>
              (openItem path es).bind fun es => scanLines fuel path es rest
          | _ => none
      | '[' :: rest =>
        (scanKey rest).bind fun (path, rest) =>
          match rest with
          | ']' :: rest =>
            (endLine rest).bind fun rest =>
              (openTable path es).bind fun es => scanLines fuel path es rest
          | _ => none
      | _ =>
        (scanKey cs).bind fun (key, rest) =>
          match rest with
          | '=' :: rest =>
            (scanValue (2 * rest.length + 2) depthLimit (rest.dropWhile isSpace)).bind
              fun (d, rest) =>
                (endLine rest).bind fun rest =>
                  (assignUnder d key header es).bind fun es => scanLines fuel header es rest
          | _ => none

/-- The document of a TOML text; a byte order mark at its start is no part of it. -/
def parse? (s : String) : Option Document :=
  let cs := match s.toList with
    | '\ufeff' :: rest => rest
    | cs => cs
  (scanLines (cs.length + 1) [] [] cs).map document

end AgentChain.Toml
