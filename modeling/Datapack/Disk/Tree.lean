import Datapack.Disk.Branch

/-
  Datapack.Disk.Tree — a file tree: which places exist, and what is there.

  A tree is a well-formed branch whose node is the root directory. So whatever exists
  stands in a directory under a proper name, and no operation can leave an orphan.

  - `add` puts a node into a directory; it replaces a file or link, never a directory, and
    takes neither a name nor a link target that no disk has.
  - `remove` takes a node out, unless something stands in it.
  - `entries` lists a directory and `below` all that lies under it, both in ascending
    order of the code points of the names. In `below` a directory comes right before its
    own contents.

  Two trees with the same nodes are equal (`ext`), and each operation is described by
  what it does to one place: `get?_add`, `get?_remove`, `mem_names`, `mem_below`.
-/

namespace Datapack

structure FileTree where
  root : Branch
  rooted : root.node = .dir
  wellFormed : root.WellFormed

namespace FileTree

def get? (t : FileTree) (p : Place) : Option Node := t.root.get? p

def empty : FileTree := ⟨.dir [], rfl, Branch.wellFormed_ofNode .dir rfl⟩

def isDir (t : FileTree) (p : Place) : Bool := t.get? p == some .dir

/-- What a directory holds, with the nodes alone, in the order of the names. -/
def entries (t : FileTree) (dir : Place) : List (String × Node) :=
  match t.root.sub? dir with
  | some (.dir es) => es.map fun e => (e.1, e.2.node)
  | _ => []

def names (t : FileTree) (dir : Place) : List String := (t.entries dir).map Prod.fst

/-- Whether `node` may be put under `name` into `dir`: that is a directory, none would be
replaced, and a disk can hold such a name and node. -/
def admits (t : FileTree) (dir : Place) (name : String) (node : Node) : Bool :=
  t.isDir dir && !t.isDir (dir ++ [name]) && isEntryName name && node.isStorable

def edit (t : FileTree) (dir : Place) (f : Entries → Entries)
    (hf : ∀ es, (Branch.dir es).WellFormed → (Branch.dir (f es)).WellFormed) : FileTree where
  root := t.root.edit f dir
  rooted := by
    have := t.rooted
    cases h : t.root with
    | file | link => simp [h, Branch.node] at this
    | dir es => cases dir <;> rfl
  wellFormed := Branch.wellFormed_edit t.wellFormed hf

/-- `t` with `node` under `name` in `dir`; unchanged where that is not possible. -/
def add (t : FileTree) (dir : Place) (name : String) (node : Node) : FileTree :=
  if h : t.admits dir name node then
    t.edit dir (Entries.put name (.ofNode node)) fun _ he => by
      simp only [admits, Bool.and_eq_true] at h
      exact Branch.wellFormed_put he h.1.2 (Branch.wellFormed_ofNode node h.2)
  else t

/-- `t` without what stands under `name` in `dir`; unchanged if something stands in it. -/
def remove (t : FileTree) (dir : Place) (name : String) : FileTree :=
  if t.names (dir ++ [name]) = [] then
    t.edit dir (Entries.take name) fun _ he => Branch.wellFormed_take he name
  else t

def below (t : FileTree) (dir : Place) : List (Place × Node) :=
  match t.root.sub? dir with
  | some b => b.descendants
  | none => []

/-- One more than the greatest number of names to a node. -/
def height (t : FileTree) : Nat := t.root.height + 1

/-! ## The tree as seen place by place -/

@[ext] theorem ext {a b : FileTree} (h : ∀ p, a.get? p = b.get? p) : a = b := by
  have := Branch.ext a.wellFormed b.wellFormed h
  cases a; cases b
  congr

@[simp] theorem get?_root (t : FileTree) : t.get? [] = some .dir := by
  simp [get?, t.rooted]

theorem sub?_of_isDir {t : FileTree} {dir : Place} (h : t.isDir dir = true) :
    ∃ es, t.root.sub? dir = some (.dir es) := by
  simp only [isDir, get?, Branch.get?, beq_iff_eq, Option.map_eq_some_iff] at h
  obtain ⟨b, hb, hn⟩ := h
  cases b with
  | file | link => cases hn
  | dir es => exact ⟨es, hb⟩

theorem get?_append (t : FileTree) (p q : Place) :
    t.get? (p ++ q) = (t.root.sub? p).bind (·.get? q) := Branch.get?_append t.root p q

/-- Only proper names lead to a node. -/
theorem isEntryName_of_get? {t : FileTree} {p : Place} (h : t.get? p ≠ none) :
    ∀ name ∈ p, isEntryName name = true := Branch.isEntryName_of_get? t.wellFormed h

/-- Below a place with nothing at it there is nothing. -/
theorem get?_append_of_none {t : FileTree} {p : Place} (h : t.get? p = none) (q : Place) :
    t.get? (p ++ q) = none := by
  have : t.root.sub? p = none := Option.map_eq_none_iff.1 h
  rw [get?_append, this]; rfl

/-- Whatever exists stands in a directory. -/
theorem get?_of_child {t : FileTree} {dir : Place} {name : String} {node : Node}
    (h : t.get? (dir ++ [name]) = some node) : t.get? dir = some .dir := by
  simp only [get?, Branch.get?_append] at h
  obtain ⟨b, hb, hg⟩ := Option.bind_eq_some_iff.1 h
  cases b with
  | file | link => cases hg
  | dir es => simp [get?, Branch.get?, hb, Branch.node]

theorem mem_entries {t : FileTree} {dir : Place} {name : String} {node : Node} :
    (name, node) ∈ t.entries dir ↔ t.get? (dir ++ [name]) = some node := by
  simp only [entries, get?, Branch.get?_append]
  cases hb : t.root.sub? dir with
  | none => simp
  | some b =>
    cases t.wellFormed.sub? hb with
    | file | link => simp [Branch.get?, Branch.sub?]
    | dir es hs _ _ =>
      simp only [Option.bind_some, Branch.get?_dir_cons, List.mem_map, Prod.mk.injEq]
      constructor
      · rintro ⟨e, he, rfl, rfl⟩
        simp [Entries.under?_of_mem hs he]
      · intro h
        obtain ⟨c, hc, hn⟩ := Option.bind_eq_some_iff.1 h
        exact ⟨(name, c), Entries.mem_of_under? hc, rfl, by simpa using hn⟩

theorem mem_names {t : FileTree} {dir : Place} {name : String} :
    name ∈ t.names dir ↔ (t.get? (dir ++ [name])).isSome = true := by
  simp only [names, List.mem_map, Prod.exists, exists_and_right, exists_eq_right, mem_entries,
    Option.isSome_iff_exists]

/-- An edit changes nothing but what lies below its place. -/
theorem get?_edit_of_outside (t : FileTree) {dir q : Place} (f : Entries → Entries) (hf)
    (hq : ¬∃ name p, q = dir ++ name :: p) : (t.edit dir f hf).get? q = t.get? q := by
  refine Branch.get?_edit_of_outside t.root fun r hr => ?_
  cases r with
  | nil => rfl
  | cons name p => exact absurd ⟨name, p, hr⟩ hq

theorem get?_edit_child (t : FileTree) (dir : Place) (f : Entries → Entries) (hf) (name : String)
    (p : Place) : (t.edit dir f hf).get? (dir ++ name :: p) =
      (t.root.sub? dir).bind fun b => (b.edit f []).get? (name :: p) := by
  rw [get?_append, edit, Branch.sub?_edit, Option.bind_map]
  rfl

theorem get?_add {t : FileTree} {dir : Place} {name : String} {node : Node}
    (h : t.admits dir name node = true) (q : Place) :
    (t.add dir name node).get? q = if q = dir ++ [name] then some node else t.get? q := by
  rw [add, dif_pos h]
  simp only [admits, Bool.and_eq_true, Bool.not_eq_true'] at h
  obtain ⟨es, hes⟩ := sub?_of_isDir h.1.1.1
  by_cases hq : ∃ m p, q = dir ++ m :: p
  · obtain ⟨m, p, rfl⟩ := hq
    have old : ∀ p, t.get? (dir ++ m :: p) = (Entries.under? m es).bind (·.get? p) :=
      fun p => by rw [get?_append, hes]; exact Branch.get?_dir_cons es m p
    rw [get?_edit_child, hes, old]
    simp only [Option.bind_some, Branch.edit, Branch.get?_dir_cons, Entries.under?_put]
    by_cases hm : m = name
    · subst hm
      cases p with
      | nil => simp
      | cons k p =>
        rw [if_pos rfl, if_neg (by simp)]
        simp only [Option.bind_some, Branch.get?_ofNode, reduceCtorEq, if_false]
        cases hc : Entries.under? m es with
        | none => rfl
        | some c =>
          refine (Branch.get?_cons_of_ne_dir (fun hn => ?_) k p).symm
          have := old []
          simp [hc, hn] at this
          simp [isDir, this] at h
    · rw [if_neg hm, if_neg (by simp [hm])]
  · rw [get?_edit_of_outside t _ _ hq, if_neg fun e => hq ⟨name, [], e⟩]

theorem get?_remove {t : FileTree} {dir : Place} {name : String}
    (h : t.names (dir ++ [name]) = []) (q : Place) :
    (t.remove dir name).get? q = if q = dir ++ [name] then none else t.get? q := by
  rw [remove, if_pos h]
  by_cases hq : ∃ m p, q = dir ++ m :: p
  · obtain ⟨m, p, rfl⟩ := hq
    rw [get?_edit_child, get?_append]
    cases hb : t.root.sub? dir with
    | none => simp
    | some b =>
      cases b with
      | file | link => simp [Branch.edit, Branch.get?, Branch.sub?]
      | dir es =>
        simp only [Option.bind_some, Branch.edit, Branch.get?_dir_cons, Entries.under?_take]
        by_cases hm : m = name
        · subst hm
          cases p with
          | nil => simp
          | cons k p =>
            have hk : t.get? (dir ++ [m] ++ [k]) = none := by
              have : k ∉ t.names (dir ++ [m]) := by rw [h]; exact List.not_mem_nil
              simpa [mem_names] using this
            have := get?_append_of_none hk p
            rw [if_pos rfl, if_neg (by simp)]
            simpa [get?_append, hb, Branch.get?_dir_cons] using this.symm
        · rw [if_neg hm, if_neg (by simp [hm])]
  · rw [get?_edit_of_outside t _ _ hq, if_neg fun e => hq ⟨name, [], e⟩]

theorem mem_below {t : FileTree} {dir rel : Place} {node : Node} :
    (rel, node) ∈ t.below dir ↔ rel ≠ [] ∧ t.get? (dir ++ rel) = some node := by
  simp only [below, get?, Branch.get?_append]
  cases hb : t.root.sub? dir with
  | none => simp
  | some b => exact Branch.mem_descendants (t.wellFormed.sub? hb)

end FileTree

end Datapack
