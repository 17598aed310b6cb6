import Datapack.Disk.Tree

/-
  Datapack.Disk.Difference — what leads from one file tree to another.

  First everything goes that the new tree does not have, or has in another kind, what
  stands in a directory before the directory. Then comes what is new or has changed, a
  directory before what stands in it. A file whose content alone has changed stays where
  it is and is written over.

  Stated here: a tree does not differ from itself (`edits_self`).
-/

namespace Datapack

inductive Edit where
  | remove (p : Place) (isDir : Bool)
  | add (p : Place) (node : Node)

/-- Whether `b` can take the place of `a` without `a` being removed. -/
def Node.canBecome (a b : Node) : Bool :=
  match a, b with
  | .file _, .file _ => true
  | a, b => a == b

namespace FileTree

/-- What has to go from `a`, deepest first. -/
def removals (a b : FileTree) : List Edit :=
  (a.below []).reverse.filterMap fun (p, node) =>
    if (b.get? p).any node.canBecome then none else some (.remove p (node == .dir))

/-- What `b` has that `a` has not, directories first. -/
def additions (a b : FileTree) : List Edit :=
  (b.below []).filterMap fun (p, node) =>
    if a.get? p = some node then none else some (.add p node)

def edits (a b : FileTree) : List Edit := removals a b ++ additions a b

theorem canBecome_self (node : Node) : node.canBecome node = true := by
  cases node <;> simp [Node.canBecome]

theorem edits_self (t : FileTree) : edits t t = [] := by
  have h : ∀ x ∈ t.below [], t.get? x.1 = some x.2 := by
    rintro ⟨p, node⟩ hx
    simpa using (mem_below.1 hx).2
  simp only [edits, removals, additions, List.append_eq_nil_iff, List.filterMap_eq_nil_iff,
    List.mem_reverse]
  exact ⟨fun x hx => by simp [h x hx, canBecome_self], fun x hx => by simp [h x hx]⟩

end FileTree

end Datapack
