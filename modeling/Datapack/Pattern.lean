import Datapack.Pattern.Bracket
import Datapack.Pattern.Group

/-
  Datapack.Pattern — whether a text is a pattern.

  A pattern is a regular expression: characters that stand for themselves, `.` for any
  character, `^` and `$` for the edges of the text, escapes (`Element`), sets in brackets
  (`OpenBracket`), groups with branches (`OpenGroup`), and `?`, `*` and `+` behind a part
  that is repeated, each with a `?` behind it for as few times as will do. Counts in
  braces are not part of it.

  What is told here is only whether there is such a pattern and it can be matched; the
  matching itself is no concern of this library.

  Stated here: each part that is read leaves no more text than there was
  (`length_of_step`), so reading ends.
-/

namespace Datapack.Pattern

structure Progress where
  mode : Mode
  /-- The innermost open group. -/
  group : OpenGroup
  /-- The groups around it, innermost first, each with the mode that it is read in. -/
  outer : List (Mode × OpenGroup)
  /-- The names of groups so far. -/
  names : List (List Char)

namespace Progress

def start : Progress := ⟨.initial, .empty, [], []⟩

def add (p : Progress) (depth : Nat) : Progress := { p with group := p.group.add depth }

def addElement (p : Progress) (e : Element) : Option Progress :=
  if e.matchable p.mode then some (p.add 0) else none

def enter (p : Progress) : GroupStart → Option Progress
  | .flags m => some { p with mode := m, group := p.group.addFlags }
  | .group m none => some ⟨m, .empty, (p.mode, p.group) :: p.outer, p.names⟩
  | .group m (some name) =>
    if p.names.contains name then none
    else some ⟨m, .empty, (p.mode, p.group) :: p.outer, name :: p.names⟩

def leave (p : Progress) : Option Progress :=
  match p.outer with
  | [] => none
  | (m, g) :: outer => some ⟨m, g.add (p.group.depth + 1), outer, p.names⟩

def complete (p : Progress) : Bool := p.outer = [] && p.group.depth ≤ maxDepth

end Progress

def dropLazy : List Char → List Char
  | '?' :: cs => cs
  | cs => cs

theorem length_dropLazy_le (cs : List Char) : (dropLazy cs).length ≤ cs.length := by
  unfold dropLazy
  split <;> simp

def step (p : Progress) (c : Char) (cs : List Char) : Option (Progress × List Char) :=
  match c with
  | '(' => (readGroup p.mode cs).bind fun (start, rest) => (p.enter start).map (·, rest)
  | ')' => p.leave.map (·, cs)
  | '|' => some ({ p with group := p.group.nextBranch }, cs)
  | '[' => (readOpening p.mode cs).bind fun (b, rest) =>
      (readBracket p.mode b [] rest).map fun (depth, rest) => (p.add depth, rest)
  | '?' | '*' | '+' => p.group.repeatLast.map fun g => ({ p with group := g }, dropLazy cs)
  | '\x7b' => none
  | '.' => if p.mode.unicode then some (p.add 0, cs) else none
  | '^' | '$' => some (p.add 0, cs)
  | '\\' => (readEscape p.mode cs).bind fun (e, rest) => (p.addElement e).map (·, rest)
  | c => (p.addElement (.literal c.toNat false)).map (·, cs)

theorem length_of_step {p q : Progress} {c : Char} {cs rest : List Char}
    (h : step p c cs = some (q, rest)) : rest.length ≤ cs.length := by
  have := length_dropLazy_le cs
  unfold step at h
  split at h <;>
    grind [Option.bind_eq_some_iff, Option.map_eq_some_iff, → length_of_readGroup,
      → length_of_readOpening, → length_of_readBracket, → length_of_readEscape]

def read (p : Progress) (cs : List Char) : Option Progress :=
  match _h : p.mode.skip cs with
  | [] => some p
  | c :: rest => match _h : step p c rest with
    | some (next, rest) => read next rest
    | none => none
termination_by cs.length
decreasing_by
  have := p.mode.length_skip_le cs
  grind [→ length_of_step]

def isPattern (cs : List Char) : Bool := (read .start cs).any Progress.complete

end Datapack.Pattern
