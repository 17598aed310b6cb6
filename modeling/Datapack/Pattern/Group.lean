import Datapack.Text.Letter
import Datapack.Pattern.Mode
import Datapack.Pattern.Nesting

/-
  Datapack.Pattern.Group — parentheses in a pattern.

  A group holds branches with `|` between them, and each branch holds parts in a row. It
  may have a name (`(?<name>…)` or `(?P<name>…)`) or flags for what it holds (`(?i:…)`).
  Flags alone in parentheses (`(?i)`) are no group: they hold up to the end of the group
  that they stand in, in its later branches too. What stands before or behind a match
  cannot be asked for (`(?=…)` and the like).

  Stated here: what begins a group leaves no more text than there was
  (`length_of_readGroup`).
-/

namespace Datapack.Pattern

/-- A group whose end has not been read; the whole pattern is one. -/
structure OpenGroup where
  /-- The branches that are complete. -/
  branches : Parts
  /-- The parts of the branch that is being read. -/
  parts : Parts
  /-- The depth of the last part, if it can be repeated. -/
  last : Option Nat
  deriving DecidableEq, Repr

namespace OpenGroup

def empty : OpenGroup := ⟨.none, .none, none⟩

def add (g : OpenGroup) (depth : Nat) : OpenGroup :=
  { g with parts := g.parts.add depth, last := some depth }

/-- The group with flags, which take the place of a part but cannot be repeated. -/
def addFlags (g : OpenGroup) : OpenGroup := { g with parts := g.parts.add 0, last := none }

def repeatLast (g : OpenGroup) : Option OpenGroup :=
  g.last.map fun depth =>
    { g with
      parts := { g.parts with deepest := max g.parts.deepest (depth + 1) }
      last := some (depth + 1) }

def nextBranch (g : OpenGroup) : OpenGroup := ⟨g.branches.add g.parts.depth, .none, none⟩

def depth (g : OpenGroup) : Nat := g.nextBranch.branches.depth

end OpenGroup

inductive GroupStart where
  /-- A group that is read in this mode, with the name that it has. -/
  | group (m : Mode) (name : Option (List Char))
  /-- Flags from here on. -/
  | flags (m : Mode)

def isGroupName : List Char → Bool
  | [] => false
  | c :: cs => (c = '_' || Text.isLetter c) && cs.all fun c =>
    c = '_' || c = '.' || c = '[' || c = ']' || Text.isAlphanumeric c

def readGroupName (cs : List Char) : Option (List Char × List Char) :=
  match cs.dropWhile (· ≠ '>') with
  | '>' :: rest =>
    let name := cs.takeWhile (· ≠ '>')
    if isGroupName name then some (name, rest) else none
  | _ => none

theorem length_of_readGroupName {cs name rest : List Char}
    (h : readGroupName cs = some (name, rest)) : rest.length ≤ cs.length := by
  have := (List.dropWhile_suffix (p := fun x => decide (x ≠ '>')) (l := cs)).length_le
  unfold readGroupName at h
  grind

def readGroup (m : Mode) (cs : List Char) : Option (GroupStart × List Char) :=
  match m.skip cs with
  | '?' :: 'P' :: '<' :: cs | '?' :: '<' :: cs =>
    (readGroupName cs).map fun (name, rest) => (.group m (some name), rest)
  | '?' :: cs =>
    (readFlags m true [] cs).map fun (flags, rest) =>
      (if flags.beginGroup then .group flags.mode none else .flags flags.mode, rest)
  | cs => some (.group m none, cs)

theorem length_of_readGroup {m : Mode} {start : GroupStart} {cs rest : List Char}
    (h : readGroup m cs = some (start, rest)) : rest.length ≤ cs.length := by
  have := m.length_skip_le cs
  unfold readGroup at h
  split at h
  · obtain ⟨_, h, e⟩ := Option.map_eq_some_iff.1 h
    grind [→ length_of_readGroupName]
  · obtain ⟨_, h, e⟩ := Option.map_eq_some_iff.1 h
    grind [→ length_of_readGroupName]
  · obtain ⟨_, h, e⟩ := Option.map_eq_some_iff.1 h
    grind [→ length_of_readFlags]
  · grind

end Datapack.Pattern
