/-
  Datapack.Text.CodePage — text in code page 437.

  Each octet is a character: below 80 the ASCII character, from 80 on the one that the
  table gives.
-/

namespace Datapack.Text.CodePage

def upper : Array Char :=
  #['Ç', 'ü', 'é', 'â', 'ä', 'à', 'å', 'ç', 'ê', 'ë', 'è', 'ï', 'î', 'ì', 'Ä', 'Å', 'É', 'æ', 'Æ',
    'ô', 'ö', 'ò', 'û', 'ù', 'ÿ', 'Ö', 'Ü', '¢', '£', '¥', '₧', 'ƒ', 'á', 'í', 'ó', 'ú', 'ñ', 'Ñ',
    'ª', 'º', '¿', '⌐', '¬', '½', '¼', '¡', '«', '»', '░', '▒', '▓', '│', '┤', '╡', '╢', '╖', '╕',
    '╣', '║', '╗', '╝', '╜', '╛', '┐', '└', '┴', '┬', '├', '─', '┼', '╞', '╟', '╚', '╔', '╩', '╦',
    '╠', '═', '╬', '╧', '╨', '╤', '╥', '╙', '╘', '╒', '╓', '╫', '╪', '┘', '┌', '█', '▄', '▌', '▐',
    '▀', 'α', 'ß', 'Γ', 'π', 'Σ', 'σ', 'µ', 'τ', 'Φ', 'Θ', 'Ω', 'δ', '∞', 'φ', 'ε', '∩', '≡', '±',
    '≥', '≤', '⌠', '⌡', '÷', '≈', '°', '∙', '·', '√', 'ⁿ', '²', '■', '\u00A0']

def glyph (b : UInt8) : Char :=
  if b < 0x80 then Char.ofNat b.toNat else upper[b.toNat - 0x80]?.getD ' '

def read (bytes : List UInt8) : String := String.ofList (bytes.map glyph)

example : upper.size = 128 := by decide +kernel
example : read [0x61, 0x80, 0xE1, 0xFF] = "aÇß\u00A0" := by decide +kernel

end Datapack.Text.CodePage
