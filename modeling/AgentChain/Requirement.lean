import AgentChain.Json.Value
import AgentChain.Text.Blank
import AgentChain.Text.Lines

/-!
# Package names and requirement files

An agent declares the packages it needs in a requirement file, one to a line. A line is a package
name followed by a qualifier (a version range, extras, a marker), and a comment runs from the first
hash sign to the end of the line. Only the name takes part in resolution. Two spellings of a name
that differ in letter case, or in `_`, `.` and `-`, name the same package.
-/

namespace AgentChain

namespace PackageName

def foldChar (c : Char) : Char :=
  if c = '_' || c = '.' then '-' else c.toLower

/-- The spelling under which packages are looked up: trimmed, in lower case as far as letters are
ASCII, with `-` for `_` and `.`. -/
def normalize (name : String) : String :=
  String.ofList ((Text.trimChars name.toList).map foldChar)

def isInitial (c : Char) : Bool :=
  ('A' ≤ c && c ≤ 'Z') || ('a' ≤ c && c ≤ 'z') || ('0' ≤ c && c ≤ '9')

def isPart (c : Char) : Bool :=
  isInitial c || c = '.' || c = '_' || c = '-'

end PackageName

structure Requirement where
  agent : String
  /-- The name in its normal spelling. -/
  name : String
  /-- What follows the name, if anything does. -/
  qualifier : Option String
  deriving DecidableEq, Repr

namespace Requirement

def toValue (r : Requirement) : Json.Value :=
  .object [
    ("agent", .string r.agent), ("name", .string r.name),
    ("qualifier", .ofOption .string r.qualifier)]

inductive Flaw where
  /-- The trimmed line does not start with a name. -/
  | noName (line : String)
  /-- The flaw of a line, counted from one. -/
  | inLine (number : Nat) (flaw : Flaw)
  deriving DecidableEq, Repr

def Flaw.message : Flaw → String
  | noName line => s!"invalid requirement line '{line}'"
  | inLine number flaw => s!"line {number}: {flaw.message}"

/-- What a line says once its comment and the blanks around it are gone. -/
def statement (line : String) : List Char :=
  Text.trimChars (line.toList.takeWhile (· ≠ '#'))

/-- What a line of a requirement file declares. -/
def parseLine (agent line : String) : Except Flaw (Option Requirement) :=
  match statement line with
  | [] => .ok none
  | c :: rest =>
    if PackageName.isInitial c then
      let name := c :: rest.takeWhile PackageName.isPart
      let qualifier := Text.trimChars (rest.dropWhile PackageName.isPart)
      .ok (some {
        agent
        name := PackageName.normalize (String.ofList name)
        qualifier := if qualifier.isEmpty then none else some (String.ofList qualifier) })
    else .error (.noName (String.ofList (c :: rest)))

def parseLines (agent : String) : (number : Nat) → List String → Except Flaw (List Requirement)
  | _, [] => .ok []
  | number, line :: rest =>
    match parseLine agent line with
    | .error flaw => .error (.inLine number flaw)
    | .ok declared =>
      match parseLines agent (number + 1) rest with
      | .error flaw => .error flaw
      | .ok more => .ok (declared.toList ++ more)

/-- Read a requirement file: the declared packages in order, or the first flaw. -/
def parseFile (agent contents : String) : Except Flaw (List Requirement) :=
  parseLines agent 1 (Text.lines contents)

end Requirement

end AgentChain
