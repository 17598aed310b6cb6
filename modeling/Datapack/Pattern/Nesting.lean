/-
  Datapack.Pattern.Nesting — how deep the parts of a pattern lie in each other.

  A single element has depth 0. Whatever holds parts lies one deeper than its deepest
  part; a row of parts is a holder of its own only when there are two or more.
-/

namespace Datapack.Pattern

structure Parts where
  count : Nat
  deepest : Nat
  deriving DecidableEq, Repr

namespace Parts

def none : Parts := ⟨0, 0⟩

def add (p : Parts) (depth : Nat) : Parts := ⟨p.count + 1, max p.deepest depth⟩

def depth (p : Parts) : Nat := if p.count ≤ 1 then p.deepest else p.deepest + 1

example : (none.add 3).depth = 3 ∧ ((none.add 3).add 0).depth = 4 ∧ none.depth = 0 := by decide

end Parts

def maxDepth : Nat := 250

end Datapack.Pattern
