import Datapack.Pattern.Mode

/-
  Datapack.Pattern.Element — the smallest parts of a pattern.

  An element is a character that stands for itself, or what a backslash and the characters
  behind it stand for: a character by its number in base 16 (`\x41`, `\u0041`,
  `\U00000041`) or by a letter (`\n`), a class of characters by a letter, an edge of the
  text or of a word; or, for any ASCII character but letters and digits, the character
  itself. There is nothing else behind a backslash: no references to groups, and no
  classes by property.

  Not every element can be matched in every mode. Patterns know no table of characters:
  they cannot fold the case of a character nor tell its class or where words end, but they
  can of octets. And they match well-formed text only, so nothing may stand for an octet
  that no ASCII character has.

  Stated here: an element leaves no more text than there was (`length_of_readEscape`).
-/

namespace Datapack.Pattern

inductive Element where
  /-- The character with this number; `octet` says that it was written as one octet. -/
  | literal (code : Nat) (octet : Bool)
  /-- Digits, blanks or word characters, or with `complement` all others. -/
  | shorthand (complement : Bool)
  /-- The beginning or the end of the text. -/
  | textEdge
  /-- The beginning or the end of a word, or that there is none. -/
  | wordEdge
  deriving DecidableEq, Repr

namespace Element

def matchable (m : Mode) : Element → Bool
  | literal code octet => if m.unicode then !m.foldCase else !octet || code < 0x80
  | shorthand complement => !m.unicode && !complement
  | textEdge => true
  | wordEdge => !m.unicode

def bracketable (m : Mode) : Element → Bool
  | literal code _ => if m.unicode then !m.foldCase else code < 0x80
  | shorthand complement => !m.unicode && !complement
  | textEdge | wordEdge => false

end Element

/-! ## Escapes -/

def hexDigit? (c : Char) : Option Nat :=
  if c.isDigit then some (c.toNat - '0'.toNat)
  else if 'a' ≤ c && c ≤ 'f' then some (c.toNat - 'a'.toNat + 10)
  else if 'A' ≤ c && c ≤ 'F' then some (c.toNat - 'A'.toNat + 10)
  else none

def readHex (m : Mode) : (digits value : Nat) → List Char → Option (Nat × List Char)
  | 0, value, cs => some (value, cs)
  | _ + 1, _, [] => none
  | digits + 1, value, c :: cs =>
    match hexDigit? c with
    | some d => readHex m digits (value * 16 + d) (m.skip cs)
    | none => none

theorem length_of_readHex {m : Mode} {digits value code : Nat} {cs rest : List Char}
    (h : readHex m digits value cs = some (code, rest)) : rest.length ≤ cs.length := by
  fun_induction readHex m digits value cs with
  | case1 => grind
  | case2 => cases h
  | case3 digits value c cs d _ ih =>
    have := ih h
    have := m.length_skip_le cs
    simp only [List.length_cons]
    omega
  | case4 => cases h

def readCode (m : Mode) (digits : Nat) (cs : List Char) : Option (Element × List Char) :=
  match readHex m digits 0 (m.skip cs) with
  | some (code, rest) =>
    if code.isValidChar then some (.literal code (digits = 2), rest) else none
  | none => none

theorem length_of_readCode {m : Mode} {digits : Nat} {e : Element} {cs rest : List Char}
    (h : readCode m digits cs = some (e, rest)) : rest.length ≤ cs.length := by
  unfold readCode at h
  split at h
  case h_1 code rest' hread =>
    have := length_of_readHex hread
    have := m.length_skip_le cs
    split at h <;> grind
  case h_2 => cases h

def readEscape (m : Mode) : List Char → Option (Element × List Char)
  | [] => none
  | 'x' :: cs => readCode m 2 cs
  | 'u' :: cs => readCode m 4 cs
  | 'U' :: cs => readCode m 8 cs
  | c :: cs => (named? c).map fun e => (e, cs)
where
  /-- The element that a backslash makes of one character. -/
  named? : Char → Option Element
    | 'd' | 's' | 'w' => some (.shorthand false)
    | 'D' | 'S' | 'W' => some (.shorthand true)
    | 'a' => some (.literal 0x07 false)
    | 't' => some (.literal 0x09 false)
    | 'n' => some (.literal 0x0A false)
    | 'v' => some (.literal 0x0B false)
    | 'f' => some (.literal 0x0C false)
    | 'r' => some (.literal 0x0D false)
    | 'A' | 'z' => some .textEdge
    | 'b' | 'B' | '<' | '>' => some .wordEdge
    | c => if c.toNat < 0x80 && !c.isAlphanum then some (.literal c.toNat false) else none

theorem length_of_readEscape {m : Mode} {e : Element} {cs rest : List Char}
    (h : readEscape m cs = some (e, rest)) : rest.length < cs.length := by
  unfold readEscape at h
  split at h
  · cases h
  · exact Nat.lt_succ_of_le (length_of_readCode h)
  · exact Nat.lt_succ_of_le (length_of_readCode h)
  · exact Nat.lt_succ_of_le (length_of_readCode h)
  · obtain ⟨_, _, h⟩ := Option.map_eq_some_iff.1 h
    cases h
    exact Nat.lt_succ_self _

example : readEscape .initial "x41-".toList = some (.literal 0x41 true, ['-']) := by
  decide +kernel
example : readEscape .initial "ud800".toList = none := by decide +kernel
example : readEscape .initial "p".toList = none := by decide +kernel

end Datapack.Pattern
