import AgentChain.Text.Printing

/-!
# Quoted texts in messages

A text that a message quotes stands between double quotes. A quote and a backslash in it are written
after a backslash, the usual line controls by their letters, and other characters that do not stand
for themselves by their numbers.
-/

namespace AgentChain.Text

def quotedChar (c : Char) : List Char :=
  if c = '"' then ['\\', '"']
  else if c = '\\' then ['\\', '\\']
  else if c = '\n' then ['\\', 'n']
  else if c = '\r' then ['\\', 'r']
  else if c = '\t' then ['\\', 't']
  else if c.toNat = 0 then ['\\', '0']
  else if isHidden c then
    '\\' :: 'u' :: '\x7b' :: (Nat.toDigits 16 c.toNat ++ ['\x7d'])
  else [c]

def quoted (s : String) : String :=
  String.ofList ('"' :: (s.toList.flatMap quotedChar ++ ['"']))

end AgentChain.Text
