import Datapack.Text.Blank

/-
  Datapack.Script.Token — the arguments in the text behind a directive's name.

  Arguments are separated by blanks. A quote, single or double, is itself dropped and
  keeps everything up to the next quote of its kind together, blanks and quotes of the
  other kind included; without such a quote it keeps the rest of the text. What touches
  a quoted stretch belongs to the same argument, and an empty pair of quotes is an empty
  argument.

  Stated here: an argument ends at a blank outside quotes (`tokensFrom_blank`), and text
  without quotes and blanks is one argument (`tokensFrom_plain`).
-/

namespace Datapack.Script

def isQuote (c : Char) : Bool := c = '"' || c = '\''

/-- The arguments of `cs`, read with `quote` open and the argument `begun`. -/
def tokensFrom : (quote : Option Char) → (begun : Option (List Char)) → List Char →
    List (List Char)
  | _, begun, [] => begun.toList
  | some q, begun, c :: cs =>
    if c = q then tokensFrom none begun cs
    else tokensFrom (some q) (some (begun.getD [] ++ [c])) cs
  | none, begun, c :: cs =>
    if isQuote c then tokensFrom (some c) (some (begun.getD [])) cs
    else if Text.isBlank c then begun.toList ++ tokensFrom none none cs
    else tokensFrom none (some (begun.getD [] ++ [c])) cs

def tokenize (s : String) : List String := (tokensFrom none none s.toList).map String.ofList

/-! ## Small laws -/

theorem tokensFrom_blank {c : Char} (hb : Text.isBlank c = true) (hq : isQuote c = false)
    (begun : Option (List Char)) (cs : List Char) :
    tokensFrom none begun (c :: cs) = begun.toList ++ tokensFrom none none cs := by
  simp [tokensFrom, hb, hq]

theorem tokensFrom_plain {word : List Char}
    (h : ∀ c ∈ word, Text.isBlank c = false ∧ isQuote c = false) (start cs : List Char) :
    tokensFrom none (some start) (word ++ cs) = tokensFrom none (some (start ++ word)) cs := by
  induction word generalizing start with
  | nil => simp
  | cons c word ih =>
    have hc := h c (by simp)
    have := ih (fun c hc => h c (by simp [hc])) (start ++ [c])
    simp [tokensFrom, hc.1, hc.2, this]

example : tokenize "a\"b c\"  '' 'it\"s'" = ["ab c", "", "it\"s"] := by decide +kernel
example : tokenize "x 'open end " = ["x", "open end "] := by decide +kernel

end Datapack.Script
