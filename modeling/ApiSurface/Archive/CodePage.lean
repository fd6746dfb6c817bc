/-!
The characters of the 8-bit code page in which entries are named unless they say otherwise. Main
statement: ASCII is part of it (`decodeName_of_ascii`).
-/

namespace ApiSurface.Archive

/-- The characters of the bytes from 128 on. -/
def upperHalf : List Char :=
  "ÇüéâäàåçêëèïîìÄÅÉæÆôöòûùÿÖÜ¢£¥₧ƒ".toList ++ "áíóúñÑªº¿⌐¬½¼¡«»░▒▓│┤╡╢╖╕╣║╗╝╜╛┐".toList ++
    ("└┴┬├─┼╞╟╚╔╩╦╠═╬╧╨╤╥╙╘╒╓╫╪┘┌█▄▌▐▀".toList ++ "αßΓπΣσµτΦΘΩδ∞φε∩≡±≥≤⌠⌡÷≈°∙·√ⁿ²■\u00a0".toList)

/-- The character of a byte. -/
def decodeByte (b : UInt8) : Char :=
  if b < 128 then Char.ofNat b.toNat else upperHalf.getD (b.toNat - 128) ' '

/-- The name that bytes in the code page spell. -/
def decodeName (bytes : List UInt8) : List Char := bytes.map decodeByte

theorem decodeName_of_ascii {bytes : List UInt8} (ascii : ∀ b ∈ bytes, b < 128) :
    decodeName bytes = bytes.map fun b => Char.ofNat b.toNat :=
  List.map_congr_left fun b mem => if_pos (ascii b mem)

end ApiSurface.Archive
