import Datapack.Pattern.Element
import Datapack.Pattern.Nesting

/-
  Datapack.Pattern.Bracket — sets of characters in brackets.

  A set lists characters, ranges from one character to another, named classes such as
  `[:alpha:]`, and sets in brackets of their own. A `^` in front takes the complement.
  Between lists stand `&&`, `--` and `~~`, for what both have, what only the first has,
  and what only one has; either list may be empty. A `-` means itself in front, behind
  which a `]` is an end, and before a `]`; so does a `]` right in front.

  Stated here: a set leaves no more text than there was (`length_of_readBracket`).
-/

namespace Datapack.Pattern

structure OpenBracket where
  /-- The depth of what the last operator has on its left. -/
  left : Option Nat
  /-- What is listed since. -/
  items : Parts
  deriving DecidableEq, Repr

namespace OpenBracket

def depth (b : OpenBracket) : Nat :=
  match b.left with
  | none => b.items.depth
  | some left => max left b.items.depth + 1

def add (b : OpenBracket) (depth : Nat) : OpenBracket := { b with items := b.items.add depth }

def operate (b : OpenBracket) : OpenBracket := ⟨some b.depth, .none⟩

end OpenBracket

/-! ## What sets hold -/

def classNames : List String :=
  ["alnum", "alpha", "ascii", "blank", "cntrl", "digit", "graph", "lower", "print", "punct",
    "space", "upper", "word", "xdigit"]

/-- Reads a named class, of which the bracket has been read; says whether it is the
complement that is named. -/
def readClass? : List Char → Option (Bool × List Char)
  | ':' :: '^' :: cs => (named cs).map (true, ·)
  | ':' :: cs => (named cs).map (false, ·)
  | _ => none
where
  /-- The text behind a name and the end of the class. -/
  named (cs : List Char) : Option (List Char) :=
    if classNames.contains (String.ofList (cs.takeWhile (· ≠ ':'))) then
      match cs.dropWhile (· ≠ ':') with
      | ':' :: ']' :: rest => some rest
      | _ => none
    else none

theorem length_of_readClass? {cs rest : List Char} {complement : Bool}
    (h : readClass? cs = some (complement, rest)) : rest.length ≤ cs.length := by
  have key : ∀ cs rest, readClass?.named cs = some rest → rest.length ≤ cs.length := by
    intro cs rest h
    have := (List.dropWhile_suffix (p := fun x => decide (x ≠ ':')) (l := cs)).length_le
    unfold readClass?.named at h
    grind
  unfold readClass? at h
  split at h
  · obtain ⟨_, h, e⟩ := Option.map_eq_some_iff.1 h
    cases e
    have := key _ _ h
    simp only [List.length_cons]; omega
  · obtain ⟨_, h, e⟩ := Option.map_eq_some_iff.1 h
    cases e
    exact Nat.le_succ_of_le (key _ _ h)
  · cases h

def classMatchable (m : Mode) (complement : Bool) : Bool :=
  if m.unicode then !m.foldCase else !complement

def readItem (m : Mode) (c : Char) (cs : List Char) : Option (Element × List Char) :=
  if c = '\\' then readEscape m cs else some (.literal c.toNat false, cs)

theorem length_of_readItem {m : Mode} {c : Char} {e : Element} {cs rest : List Char}
    (h : readItem m c cs = some (e, rest)) : rest.length ≤ cs.length := by
  unfold readItem at h
  split at h
  · exact Nat.le_of_lt (length_of_readEscape h)
  · cases h
    exact Nat.le_refl _

/-- The first character that counts behind a `-`. One `#` is passed over with the blanks. -/
def peek? (m : Mode) (cs : List Char) : Option Char :=
  if m.spaced then
    match cs.dropWhile Text.isBlank with
    | '#' :: rest => (rest.dropWhile Text.isBlank).head?
    | rest => rest.head?
  else cs.head?

def isRange : Element → Element → Bool
  | .literal low _, .literal high _ => low ≤ high
  | _, _ => false

def readRange (m : Mode) (c : Char) (cs : List Char) : Option (List Char) :=
  match readItem m c cs with
  | none => none
  | some (low, rest) =>
    if low.bracketable m then
      match m.skip rest with
      | '-' :: more =>
        if peek? m more = some ']' || peek? m more = some '-' then some ('-' :: more)
        else match m.skip more with
          | [] => none
          | c :: more => match readItem m c more with
            | none => none
            | some (high, more) =>
              if high.bracketable m && isRange low high then some more else none
      | rest => some rest
    else none

theorem length_of_readRange {m : Mode} {c : Char} {cs rest : List Char}
    (h : readRange m c cs = some rest) : rest.length ≤ cs.length := by
  have skips := m.length_skip_le
  have items := @length_of_readItem m
  unfold readRange at h
  grind

def readDashes (m : Mode) (items : Parts) : List Char → Parts × List Char
  | '-' :: cs => readDashes m (items.add 0) (m.skip cs)
  | cs => (items, cs)
termination_by cs => cs.length
decreasing_by exact Nat.lt_succ_of_le (m.length_skip_le _)

theorem length_readDashes_le (m : Mode) (items : Parts) (cs : List Char) :
    (readDashes m items cs).2.length ≤ cs.length := by
  have skips := m.length_skip_le
  fun_induction readDashes m items cs with
  | case1 items cs ih => grind
  | case2 => exact Nat.le_refl _

def readOpening (m : Mode) (cs : List Char) : Option (OpenBracket × List Char) :=
  match m.skip cs with
  | '^' :: cs => if m.unicode then opening (m.skip cs) else none
  | cs => opening cs
where
  /-- The characters in front that mean themselves. -/
  opening (cs : List Char) : Option (OpenBracket × List Char) :=
    let (items, cs) := match readDashes m .none cs with
      | (⟨0, _⟩, ']' :: cs) => (Parts.none.add 0, cs)
      | read => read
    if items.count = 0 || Element.bracketable m (.literal '-'.toNat false) then
      some (⟨none, items⟩, cs)
    else none

theorem length_of_readOpening {m : Mode} {b : OpenBracket} {cs rest : List Char}
    (h : readOpening m cs = some (b, rest)) : rest.length ≤ cs.length := by
  have skips := m.length_skip_le
  have key : ∀ cs rest b, readOpening.opening m cs = some (b, rest) → rest.length ≤ cs.length := by
    intro cs rest b h
    have := length_readDashes_le m .none cs
    unfold readOpening.opening at h
    grind
  unfold readOpening at h
  grind

/-- Reads a set in brackets, of which `b` has been read within `outer`; gives its depth. -/
def readBracket (m : Mode) (b : OpenBracket) (outer : List OpenBracket) (cs : List Char) :
    Option (Nat × List Char) :=
  match _h : m.skip cs with
  | [] => none
  | ']' :: rest =>
    match outer with
    | [] => some (b.depth + 1, rest)
    | above :: outer => readBracket m (above.add (b.depth + 1)) outer rest
  | '[' :: rest =>
    match _h : readClass? rest with
    | some (complement, rest) =>
      if classMatchable m complement then readBracket m (b.add 0) outer rest else none
    | none => match _h : readOpening m rest with
      | some (inner, rest) => readBracket m inner (b :: outer) rest
      | none => none
  | '&' :: '&' :: rest => readBracket m b.operate outer rest
  | '-' :: '-' :: rest => readBracket m b.operate outer rest
  | '~' :: '~' :: rest => readBracket m b.operate outer rest
  | c :: rest => match _h : readRange m c rest with
    | some rest => readBracket m (b.add 0) outer rest
    | none => none
termination_by cs.length
decreasing_by
  all_goals
    have := m.length_skip_le cs
    grind [→ length_of_readClass?, → length_of_readOpening, → length_of_readRange]

theorem length_of_readBracket {m : Mode} {b : OpenBracket} {outer : List OpenBracket}
    {cs rest : List Char} {depth : Nat} (h : readBracket m b outer cs = some (depth, rest)) :
    rest.length ≤ cs.length := by
  have skips := m.length_skip_le
  fun_induction readBracket m b outer cs <;>
    grind [→ length_of_readClass?, → length_of_readOpening, → length_of_readRange]

end Datapack.Pattern
