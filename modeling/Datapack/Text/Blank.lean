/-
  Datapack.Text.Blank — blank characters, and trimming them.

  A character is blank when Unicode gives it the White_Space property: 25 characters,
  listed in `blankRanges`. Tokens, directive names, trimmed messages and empty lines
  all use this one class; `spaces` alone (U+0020) matter only after the strip marker.

  Stated here: a text without blanks is trimmed already (`trim_of_plain`).
-/

namespace Datapack.Text

/-- The code points with the White_Space property, as closed ranges in ascending order. -/
def blankRanges : List (Nat × Nat) :=
  [(0x09, 0x0D), (0x20, 0x20), (0x85, 0x85), (0xA0, 0xA0), (0x1680, 0x1680), (0x2000, 0x200A),
   (0x2028, 0x2029), (0x202F, 0x202F), (0x205F, 0x205F), (0x3000, 0x3000)]

def isBlank (c : Char) : Bool :=
  blankRanges.any fun r => r.1 ≤ c.toNat && c.toNat ≤ r.2

def dropEndWhile (p : Char → Bool) (cs : List Char) : List Char :=
  (cs.reverse.dropWhile p).reverse

def trimStart (s : String) : String := String.ofList (s.toList.dropWhile isBlank)

def trimEnd (s : String) : String := String.ofList (dropEndWhile isBlank s.toList)

def trim (s : String) : String := trimEnd (trimStart s)

/-- What follows `marker` at the start of `s`, if `s` starts with it. -/
def after? (marker s : String) : Option String :=
  if marker.toList.isPrefixOf s.toList then some (String.ofList (s.toList.drop marker.length))
  else none

/-! ## Small laws -/

example : (blankRanges.map fun r => r.2 + 1 - r.1).sum = 25 := by decide

@[simp] theorem toList_trimStart (s : String) :
    (trimStart s).toList = s.toList.dropWhile isBlank := by
  simp [trimStart]

@[simp] theorem toList_trimEnd (s : String) :
    (trimEnd s).toList = dropEndWhile isBlank s.toList := by
  simp [trimEnd]

/-- A text without blanks stays as it is. -/
theorem trim_of_plain {s : String} (h : ∀ c ∈ s.toList, isBlank c = false) : trim s = s := by
  have stays : ∀ cs : List Char, (∀ c ∈ cs, c ∈ s.toList) → cs.dropWhile isBlank = cs := by
    intro cs hcs
    cases cs with
    | nil => rfl
    | cons c cs => rw [List.dropWhile_cons_of_neg (by simp [h c (hcs c List.mem_cons_self)])]
  rw [trim, trimEnd, dropEndWhile, toList_trimStart, stays s.toList fun _ hc => hc,
    stays s.toList.reverse fun _ hc => List.mem_reverse.1 hc, List.reverse_reverse,
    String.ofList_toList]

end Datapack.Text
