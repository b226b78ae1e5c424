/-!
# Code page 437

The characters of bytes in names of zip entries that are not marked as UTF-8: ASCII below 128, and
letters, box drawings and symbols above.
-/

namespace AgentChain.Text

def codePage437Upper : List Char :=
  ("ÇüéâäàåçêëèïîìÄÅÉæÆôöòûùÿÖÜ¢£¥₧ƒ" ++
    "áíóúñÑªº¿⌐¬½¼¡«»░▒▓│┤╡╢╖╕╣║╗╝╜╛┐" ++
    "└┴┬├─┼╞╟╚╔╩╦╠═╬╧╨╤╥╙╘╒╓╫╪┘┌█▄▌▐▀" ++
    "αßΓπΣσµτΦΘΩδ∞φε∩≡±≥≤⌠⌡÷≈°∙·√ⁿ²■\u00a0").toList

def codePage437Char (b : UInt8) : Char :=
  if b < 0x80 then Char.ofNat b.toNat else codePage437Upper.getD (b.toNat - 0x80) ' '

def codePage437 (bytes : List UInt8) : String :=
  String.ofList (bytes.map codePage437Char)

end AgentChain.Text
