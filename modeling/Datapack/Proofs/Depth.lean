import Datapack.Proofs.Entering

/-
  Datapack.Proofs.Depth — names and trees as long and as deep as is wanted.

  A disk bounds the bytes of a name and those of the text of a path, but not how deep its
  tree is: from a directory that is deep already, others can be made by short relative
  paths. So there are trees with nodes that no path from the root leads to. Here are such
  trees, directories of one name in each other (`FileTree.chain`), and the size of their
  paths (`size_ofPlace_replicate`).
-/

namespace Datapack

def longName (n : Nat) : String := String.ofList (List.replicate n 'n')

@[simp] theorem toList_longName (n : Nat) : (longName n).toList = List.replicate n 'n' :=
  String.toList_ofList

@[simp] theorem size_longName (n : Nat) : (longName n).utf8ByteSize = n := by
  unfold longName
  induction n with
  | zero => rfl
  | succ n ih =>
    rw [List.replicate_succ', String.ofList_append, String.utf8ByteSize_append, ih]
    rfl

theorem isStretch_longName {n : Nat} (hn : 2 < n) :
    Path.IsStretch (longName n) ∧ longName n ≠ "." ∧ longName n ≠ ".." := by
  obtain ⟨m, rfl⟩ : ∃ m, n = m + 3 := ⟨n - 3, by omega⟩
  refine ⟨⟨?_, ?_⟩, ?_, ?_⟩
  · rw [ne_eq, ← String.toList_inj]
    simp
  · rw [toList_longName]
    intro hc
    exact absurd (List.eq_of_mem_replicate hc) (by decide)
  all_goals
    rw [ne_eq, ← String.toList_inj, toList_longName]
    simp [List.replicate_succ]

/-- A node can have the name, if it is not too long. -/
theorem isEntryName_longName {n : Nat} (hn : 2 < n) (hmax : n ≤ maxNameBytes) :
    isEntryName (longName n) = true := by
  obtain ⟨hstretch, hdot, hdots⟩ := isStretch_longName hn
  refine isEntryName_iff.2 ⟨⟨hstretch, ?_⟩, hdot, hdots, by rwa [size_longName]⟩
  rw [toList_longName]
  intro hc
  exact absurd (List.eq_of_mem_replicate hc) (by decide)

/-! ## Directories in each other -/

namespace FileTree

/-- A tree of `k` directories of one name, each in the one before it. -/
def chain (name : String) : Nat → FileTree
  | 0 => empty
  | k + 1 => (chain name k).add (List.replicate k name) name .dir

theorem get?_chain {name : String} (hname : isEntryName name = true) (k : Nat) (q : Place) :
    (chain name k).get? q =
      if q.length ≤ k ∧ q = List.replicate q.length name then some .dir else none := by
  induction k generalizing q with
  | zero =>
    have hempty : empty.get? q = if q = [] then some .dir else none := Branch.get?_ofNode .dir q
    rw [chain, hempty]
    cases q with
    | nil => rfl
    | cons first rest => simp
  | succ k ih =>
    have hlast : List.replicate k name ++ [name] = List.replicate (k + 1) name :=
      List.replicate_succ'.symm
    have hadmits : (chain name k).admits (List.replicate k name) name .dir = true := by
      simp [admits, isDir, hlast, ih, hname, Node.isStorable]
    rw [chain, get?_add hadmits, hlast, ih]
    by_cases hq : q = List.replicate (k + 1) name
    · simp [hq]
    · have hlen : q = List.replicate q.length name → q.length ≠ k + 1 := by
        intro he hlen
        rw [hlen] at he
        exact hq he
      rw [if_neg hq]
      by_cases he : q = List.replicate q.length name
      · have := hlen he
        have hle : q.length ≤ k ↔ q.length ≤ k + 1 := by omega
        simp only [hle]
      · rw [if_neg (fun h => he h.2), if_neg (fun h => he h.2)]

theorem linkFree_chain {name : String} (hname : isEntryName name = true) (k : Nat) :
    (chain name k).LinkFree := by
  intro q target h
  rw [get?_chain hname] at h
  split at h <;> cases h

end FileTree

namespace Path

/-- Each name takes its bytes and one for the separator. -/
theorem size_ofPlace_concat (place : Place) (name : String) :
    (ofPlace (place ++ [name])).text.utf8ByteSize =
      (if place = [] then 0 else (ofPlace place).text.utf8ByteSize) + name.utf8ByteSize + 1 := by
  rw [text_ofPlace_concat]
  have hsep : "/".utf8ByteSize = 1 := by decide
  split
  · simp [String.utf8ByteSize_append, hsep]
    omega
  · simp [String.utf8ByteSize_append, hsep]
    omega

theorem size_ofPlace_replicate (name : String) (k : Nat) :
    (ofPlace (List.replicate (k + 1) name)).text.utf8ByteSize = (k + 1) * (name.utf8ByteSize + 1) := by
  induction k with
  | zero =>
    have h := size_ofPlace_concat [] name
    simpa using h
  | succ k ih =>
    rw [List.replicate_succ', size_ofPlace_concat, if_neg (by simp), ih, Nat.add_mul (k + 1) 1]
    omega

end Path

end Datapack
