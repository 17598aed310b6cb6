import Datapack.Text.Blank

/-
  Datapack.Pattern.Mode — how the text of a pattern is to be understood.

  A pattern is read in a mode, which its flags change as it goes: whether it speaks of
  characters or of octets, whether upper and lower case count as the same, and whether
  blanks and comments may stand between its parts. A comment goes from `#` to the end of
  the line.

  Flags are single letters. Those behind a `-` are cleared, those before it set. There is
  one `-` at most, with a flag behind it, and no flag comes twice.

  Stated here: what is passed over or read as flags leaves no more text than there was
  (`Mode.length_skip_le`, `length_of_readFlags`).
-/

namespace Datapack.Pattern

structure Mode where
  /-- It speaks of characters; of octets otherwise. -/
  unicode : Bool
  /-- Upper and lower case count as the same. -/
  foldCase : Bool
  /-- Blanks and comments between its parts mean nothing. -/
  spaced : Bool
  deriving DecidableEq, Repr

/-- The text behind the blanks and comments in front of it; `comment` says that it begins
inside a comment. -/
def dropGaps (comment : Bool) : List Char → List Char
  | [] => []
  | c :: cs =>
    if comment then dropGaps (c ≠ '\n') cs
    else if Text.isBlank c then dropGaps false cs
    else if c = '#' then dropGaps true cs
    else c :: cs

theorem length_dropGaps_le (comment : Bool) (cs : List Char) :
    (dropGaps comment cs).length ≤ cs.length := by
  fun_induction dropGaps comment cs <;> grind

namespace Mode

def initial : Mode := ⟨true, false, false⟩

def skip (m : Mode) (cs : List Char) : List Char :=
  if m.spaced then dropGaps false cs else cs

theorem length_skip_le (m : Mode) (cs : List Char) : (m.skip cs).length ≤ cs.length := by
  unfold skip
  split
  · exact length_dropGaps_le false cs
  · exact Nat.le_refl _

/-- The mode with a flag set or cleared; the other flags play no part in reading. -/
def withFlag (m : Mode) (flag : Char) (on : Bool) : Mode :=
  match flag with
  | 'u' => { m with unicode := on }
  | 'i' => { m with foldCase := on }
  | 'x' => { m with spaced := on }
  | _ => m

end Mode

/-! ## Flags -/

def flagLetters : List Char := ['i', 'm', 's', 'U', 'u', 'R', 'x']

structure Flags where
  mode : Mode
  /-- They begin a group, which they hold for; otherwise they hold from where they stand. -/
  beginGroup : Bool

/-- Reads flags up to `)` or `:`. Those in `seen` came before, the last one first. -/
def readFlags (m : Mode) (on : Bool) (seen : List Char) : List Char → Option (Flags × List Char)
  | [] => none
  | c :: cs =>
    if c = ':' then if seen.head? = some '-' then none else some (⟨m, true⟩, cs)
    else if c = ')' then
      if seen = [] || seen.head? = some '-' then none else some (⟨m, false⟩, cs)
    else if seen.contains c then none
    else if c = '-' then readFlags m false (c :: seen) cs
    else if flagLetters.contains c then readFlags (m.withFlag c on) on (c :: seen) cs
    else none

theorem length_of_readFlags {m : Mode} {on : Bool} {seen cs rest : List Char} {flags : Flags}
    (h : readFlags m on seen cs = some (flags, rest)) : rest.length ≤ cs.length := by
  fun_induction readFlags m on seen cs <;> grind

end Datapack.Pattern
