/-
  Datapack.Text.Decimal — whether a text writes a number.

  A number is a sign, which may be missing, and digits with at most one point among,
  before or behind them; then, if it has one, an exponent: an `e` and a whole number,
  which may have a sign. `inf`, `infinity` and `nan` count as numbers too. Case does not
  matter.
-/

namespace Datapack.Text

def dropSign : List Char → List Char
  | '+' :: cs | '-' :: cs => cs
  | cs => cs

def isDigits (cs : List Char) : Bool := cs ≠ [] && cs.all Char.isDigit

def isExponent : List Char → Bool
  | [] => true
  | c :: cs => c.toLower = 'e' && isDigits (dropSign cs)

def isDecimal (cs : List Char) : Bool :=
  let cs := dropSign cs
  let whole := cs.takeWhile Char.isDigit
  ["inf", "infinity", "nan"].contains (String.ofList (cs.map Char.toLower)) ||
  match cs.dropWhile Char.isDigit with
  | '.' :: rest =>
    (whole ≠ [] || (rest.head?.any Char.isDigit)) && isExponent (rest.dropWhile Char.isDigit)
  | rest => whole ≠ [] && isExponent rest

example : ["1", "+.5", "2.", "-1.5e-7", "+NaN"].all (isDecimal ·.toList) := by decide +kernel
example : ["", "+", ".", "++1", "1e", "1.5.2", "e5"].all (!isDecimal ·.toList) := by
  decide +kernel

end Datapack.Text
