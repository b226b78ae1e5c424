/-!
# Lines of a text

A line ends at a newline, and a carriage return right before that newline belongs to the line end.
A text that ends in a newline has no empty line after it; a carriage return anywhere else is an
ordinary character, also at the very end of a text without a final newline.
-/

namespace AgentChain.Text

/-- Drop one carriage return from the end of a line that was ended by a newline. -/
def dropReturn (line : List Char) : List Char :=
  match line.reverse with
  | '\r' :: rest => rest.reverse
  | _ => line

/-- The lines of a text, where `current` holds the characters of the open line, newest first. -/
def linesFrom (current : List Char) : List Char → List (List Char)
  | [] => if current.isEmpty then [] else [current.reverse]
  | '\n' :: rest => dropReturn current.reverse :: linesFrom [] rest
  | c :: rest => linesFrom (c :: current) rest

/-- The lines of a text, without their ends. -/
def lines (s : String) : List String :=
  (linesFrom [] s.toList).map String.ofList

/-- The parts of a list between the occurrences of a separator; there is always at least one. -/
def splitAtChar (separator : Char) : List Char → List (List Char)
  | [] => [[]]
  | c :: rest =>
    if c = separator then [] :: splitAtChar separator rest
    else match splitAtChar separator rest with
      | [] => [[c]]
      | part :: parts => (c :: part) :: parts

def split (separator : Char) (s : String) : List String :=
  (splitAtChar separator s.toList).map String.ofList

def join (separator : String) (parts : List String) : String :=
  String.intercalate separator parts

end AgentChain.Text
