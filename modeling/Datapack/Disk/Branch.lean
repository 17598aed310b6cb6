import Datapack.Path

/-
  Datapack.Disk.Branch — a node together with all that stands below it.

  A branch is a file, a link, or a directory with its entries, each a name with a branch
  of its own. A place, seen from a branch, is the list of names that leads from it to a
  node (`sub?`, `get?`). `edit` changes the entries of the directory at one place and
  leaves the rest; `put` and `take` are the two changes of entries.

  Entries are kept in ascending order of the code points of their names, each name once,
  so what stands where determines the branch (`ext`). A name is one that a path can lead
  along, and a link's target is a path that can be followed (`WellFormed`): a disk takes
  no others.

  - `get?_edit_of_outside`: an edit is not seen but below its place.
  - `sub?_edit`: at its place the entries are what the edit makes of them.
  - `mem_descendants`: `descendants` lists exactly what stands at the places other than the branch's
    own.
-/

namespace Datapack

/-- Bytes are compared as arrays. -/
local instance decidableEqBytes : DecidableEq ByteArray := ByteArray.instDecidableEq

inductive Node where
  | dir
  | file (bytes : ByteArray)
  /-- A symbolic link. -/
  | link (target : Path)
  deriving DecidableEq

def maxNameBytes : Nat := 255

def maxPathBytes : Nat := 4095

/-- Whether the text has a NUL, which no path on a disk can have. -/
def Path.hasNul (p : Path) : Bool := p.text.toList.contains '\x00'

def isEntryName (name : String) : Bool :=
  name ≠ "" && name ≠ "." && name ≠ ".." && !name.toList.contains '/' &&
    !name.toList.contains '\x00' && name.utf8ByteSize ≤ maxNameBytes

/-- Whether a disk can hold the node: any but a link with an impossible target. -/
def Node.isStorable : Node → Bool
  | link target => target.text ≠ "" && !target.hasNul && target.text.utf8ByteSize ≤ maxPathBytes
  | _ => true

inductive Branch where
  | file (bytes : ByteArray)
  | link (target : Path)
  | dir (entries : List (String × Branch))

abbrev Entries := List (String × Branch)

namespace Entries

def under? (name : String) : Entries → Option Branch
  | [] => none
  | e :: es => if name = e.1 then some e.2 else under? name es

def put (name : String) (b : Branch) : Entries → Entries
  | [] => [(name, b)]
  | e :: es =>
    if name < e.1 then (name, b) :: e :: es
    else if name = e.1 then (name, b) :: es
    else e :: put name b es

def take (name : String) (es : Entries) : Entries := es.filter fun e => e.1 ≠ name

def change (name : String) (f : Branch → Branch) (es : Entries) : Entries :=
  es.map fun e => if e.1 = name then (e.1, f e.2) else e

theorem under?_put (name other : String) (b : Branch) (es : Entries) :
    under? other (put name b es) = if other = name then some b else under? other es := by
  induction es with
  | nil => simp [put, under?]
  | cons e es ih =>
    unfold put
    split
    · simp [under?]
    · split
      · rename_i h
        simp only [under?, ← h]
        split <;> rfl
      · simp only [under?, ih]
        split
        · rename_i _ h ho
          rw [if_neg (by rintro rfl; exact h ho)]
        · rfl

theorem under?_take (name other : String) (es : Entries) :
    under? other (take name es) = if other = name then none else under? other es := by
  induction es with
  | nil => simp [take, under?]
  | cons e es ih =>
    simp only [take, List.filter_cons] at ih ⊢
    by_cases he : e.1 = name
    · simp only [he, ne_eq, not_true, decide_false, Bool.false_eq_true, if_false, ih, under?]
      split <;> simp_all
    · simp only [he, ne_eq, not_false_eq_true, decide_true, if_true, under?, ih]
      split
      · rename_i ho
        rw [if_neg (by rintro rfl; exact he ho.symm)]
      · rfl

theorem under?_change (name other : String) (f : Branch → Branch) (es : Entries) :
    under? other (change name f es) =
      if other = name then (under? name es).map f else under? other es := by
  induction es with
  | nil => simp [change, under?]
  | cons e es ih =>
    simp only [change, List.map_cons] at ih ⊢
    by_cases he : e.1 = name <;> by_cases ho : other = e.1 <;> by_cases hn : other = name <;>
      simp_all [under?]

def Sorted (es : Entries) : Prop := es.Pairwise fun a b => a.1 < b.1

theorem mem_put {name : String} {b : Branch} {es : Entries} {e : String × Branch}
    (h : e ∈ put name b es) : e = (name, b) ∨ e ∈ es := by
  induction es with
  | nil => simpa [put] using h
  | cons a es ih =>
    unfold put at h
    split at h
    · simpa using h
    · split at h
      · rcases List.mem_cons.1 h with h | h
        · exact .inl h
        · exact .inr (List.mem_cons_of_mem _ h)
      · rcases List.mem_cons.1 h with h | h
        · exact .inr (h ▸ List.mem_cons_self)
        · exact (ih h).imp_right (List.mem_cons_of_mem _)

theorem sorted_put {es : Entries} (h : es.Sorted) (name : String) (b : Branch) :
    (put name b es).Sorted := by
  induction es with
  | nil => simp [put, Sorted]
  | cons a es ih =>
    have ⟨ha, hes⟩ := List.pairwise_cons.1 h
    unfold put
    split
    · rename_i hlt
      refine List.pairwise_cons.2 ⟨fun e he => ?_, h⟩
      rcases List.mem_cons.1 he with rfl | he
      · exact hlt
      · exact String.lt_trans hlt (ha e he)
    · split
      · rename_i heq
        exact List.pairwise_cons.2 ⟨fun e he => by simpa [heq] using ha e he, hes⟩
      · rename_i hnlt hne
        refine List.pairwise_cons.2 ⟨fun e he => ?_, ih hes⟩
        rcases mem_put he with rfl | he
        · exact Std.lt_of_le_of_ne (Std.not_lt.1 hnlt) (Ne.symm hne)
        · exact ha e he

theorem sorted_take {es : Entries} (h : es.Sorted) (name : String) : (take name es).Sorted :=
  h.sublist List.filter_sublist

theorem sorted_change {es : Entries} (h : es.Sorted) (name : String) (f : Branch → Branch) :
    (change name f es).Sorted := by
  refine List.pairwise_map.2 (h.imp fun {a b} hab => ?_)
  by_cases ha : a.1 = name <;> by_cases hb : b.1 = name <;> simp_all

theorem mem_of_under? {es : Entries} {name : String} {b : Branch}
    (h : under? name es = some b) : (name, b) ∈ es := by
  induction es with
  | nil => cases h
  | cons e es ih =>
    unfold under? at h
    split at h
    · rename_i he
      cases h
      exact he ▸ List.mem_cons_self
    · exact List.mem_cons_of_mem _ (ih h)

theorem under?_of_mem {es : Entries} (hs : es.Sorted) {name : String} {b : Branch}
    (h : (name, b) ∈ es) : under? name es = some b := by
  induction es with
  | nil => cases h
  | cons e es ih =>
    have ⟨he, hes⟩ := List.pairwise_cons.1 hs
    rcases List.mem_cons.1 h with rfl | h
    · simp [under?]
    · have hne : name ≠ e.1 := fun heq => String.lt_irrefl name (heq ▸ he (name, b) h)
      simpa [under?, hne] using ih hes h

/-- Sorted entries are determined by what stands under each name. -/
theorem eq_of_under? {as bs : Entries} (ha : as.Sorted) (hb : bs.Sorted)
    (h : ∀ name, under? name as = under? name bs) : as = bs := by
  have perm : ∀ e, e ∈ as ↔ e ∈ bs := fun e =>
    ⟨fun he => mem_of_under? (h e.1 ▸ under?_of_mem ha he),
      fun he => mem_of_under? (h e.1 ▸ under?_of_mem hb he)⟩
  have nodup : ∀ {es : Entries}, es.Sorted → es.Nodup := by
    intro es hs
    refine List.Pairwise.imp ?_ hs
    rintro a b hlt rfl
    exact String.lt_irrefl _ hlt
  refine List.Perm.eq_of_pairwise (fun a b _ _ hab hba => ?_) ha hb
    ((List.perm_ext_iff_of_nodup (nodup ha) (nodup hb)).2 perm)
  exact absurd (String.lt_trans hab hba) (String.lt_irrefl _)

end Entries

namespace Branch

def node : Branch → Node
  | file bytes => .file bytes
  | link target => .link target
  | dir _ => .dir

def ofNode : Node → Branch
  | .file bytes => file bytes
  | .link target => link target
  | .dir => dir []

def sub? : Branch → Place → Option Branch
  | b, [] => some b
  | dir es, name :: p => match Entries.under? name es with
    | some b => b.sub? p
    | none => none
  | _, _ :: _ => none

def get? (b : Branch) (p : Place) : Option Node := (b.sub? p).map node

def edit (f : Entries → Entries) : Place → Branch → Branch
  | [], dir es => dir (f es)
  | name :: p, dir es => dir (Entries.change name (edit f p) es)
  | _, b => b

/-! ## Places below a branch -/

mutual

/-- What stands below the node, by the names from there on. A directory comes right before
what it holds, and entries in the order of their names. -/
def descendants : Branch → List (Place × Node)
  | file _ | link _ => []
  | dir es => descendantsOf es

def descendantsOf : List (String × Branch) → List (Place × Node)
  | [] => []
  | (name, b) :: es =>
    ([name], b.node) :: (b.descendants.map fun (p, node) => (name :: p, node)) ++ descendantsOf es

end

mutual

/-- How many names lead to the node that lies deepest, at most. -/
def height : Branch → Nat
  | file _ | link _ => 0
  | dir es => heightOf es

def heightOf : List (String × Branch) → Nat
  | [] => 0
  | (_, b) :: es => max (b.height + 1) (heightOf es)

end

/-! ## Well-formed branches -/

/-- The entries of every directory are sorted, and a disk can hold each name and node. -/
inductive WellFormed : Branch → Prop where
  | file (bytes : ByteArray) : WellFormed (.file bytes)
  | link (target : Path) : (Node.link target).isStorable = true → WellFormed (.link target)
  | dir (es : Entries) : es.Sorted → (∀ e ∈ es, isEntryName e.1 = true) →
      (∀ e ∈ es, WellFormed e.2) → WellFormed (.dir es)

theorem wellFormed_ofNode (node : Node) (h : node.isStorable = true) :
    (ofNode node).WellFormed := by
  cases node with
  | dir => exact .dir [] List.Pairwise.nil (by simp) (by simp)
  | file bytes => exact .file bytes
  | link target => exact .link target h

theorem wellFormed_put {es : Entries} (h : (dir es).WellFormed) {name : String} {b : Branch}
    (hn : isEntryName name = true) (hb : b.WellFormed) :
    (dir (Entries.put name b es)).WellFormed := by
  cases h with
  | dir _ hs hname hwf =>
    refine .dir _ (Entries.sorted_put hs name b) (fun e he => ?_) (fun e he => ?_)
    · rcases Entries.mem_put he with rfl | he
      · exact hn
      · exact hname e he
    · rcases Entries.mem_put he with rfl | he
      · exact hb
      · exact hwf e he

theorem wellFormed_take {es : Entries} (h : (dir es).WellFormed) (name : String) :
    (dir (Entries.take name es)).WellFormed := by
  cases h with
  | dir _ hs hname hwf =>
    exact .dir _ (Entries.sorted_take hs name) (fun e he => hname e (List.mem_filter.1 he).1)
      (fun e he => hwf e (List.mem_filter.1 he).1)

theorem WellFormed.sub? {b c : Branch} {p : Place} (h : b.WellFormed) (hc : b.sub? p = some c) :
    c.WellFormed := by
  induction p generalizing b with
  | nil =>
    have : b = c := by cases b <;> exact Option.some.inj hc
    exact this ▸ h
  | cons name p ih =>
    cases h with
    | file | link => cases hc
    | dir es hs hn he =>
      simp only [Branch.sub?] at hc
      split at hc
      · exact ih (he _ (Entries.mem_of_under? ‹_›)) hc
      · cases hc

theorem wellFormed_edit {f : Entries → Entries} {p : Place} {b : Branch} (h : b.WellFormed)
    (hf : ∀ es, (dir es).WellFormed → (dir (f es)).WellFormed) : (b.edit f p).WellFormed := by
  induction p generalizing b with
  | nil =>
    cases h with
    | file bytes => exact .file bytes
    | link target ht => exact .link target ht
    | dir es hs hn he => exact hf es (.dir es hs hn he)
  | cons name p ih =>
    cases h with
    | file bytes => exact .file bytes
    | link target ht => exact .link target ht
    | dir es hs hn he =>
      refine .dir _ (Entries.sorted_change hs name _) (fun e hm => ?_) (fun e hm => ?_)
      all_goals obtain ⟨a, ha, rfl⟩ := List.mem_map.1 hm
      · by_cases ho : a.1 = name
        · simpa [ho] using hn a ha
        · simpa [ho] using hn a ha
      · by_cases ho : a.1 = name
        · simpa [ho] using ih (he a ha)
        · simpa [ho] using he a ha

/-! ## The branch as seen place by place -/

@[simp] theorem get?_nil (b : Branch) : b.get? [] = some b.node := by
  cases b <;> rfl

theorem get?_dir_cons (es : Entries) (name : String) (p : Place) :
    (dir es).get? (name :: p) = (Entries.under? name es).bind (·.get? p) := by
  simp only [get?, sub?]
  cases Entries.under? name es <;> rfl

theorem get?_cons_of_ne_dir {b : Branch} (h : b.node ≠ .dir) (name : String) (p : Place) :
    b.get? (name :: p) = none := by
  cases b with
  | file | link => rfl
  | dir => exact absurd rfl h

@[simp] theorem node_ofNode (node : Node) : (ofNode node).node = node := by
  cases node <;> rfl

/-- A node alone has nothing below it. -/
theorem get?_ofNode (node : Node) (p : Place) :
    (ofNode node).get? p = if p = [] then some node else none := by
  cases p with
  | nil => cases node <;> rfl
  | cons name p => cases node <;> rfl

theorem sub?_append (b : Branch) (p q : Place) :
    b.sub? (p ++ q) = (b.sub? p).bind (·.sub? q) := by
  induction p generalizing b with
  | nil => cases b <;> rfl
  | cons name p ih =>
    cases b with
    | file | link => rfl
    | dir es =>
      simp only [List.cons_append, sub?]
      cases Entries.under? name es with
      | none => rfl
      | some b => exact ih b

theorem get?_append (b : Branch) (p q : Place) :
    b.get? (p ++ q) = (b.sub? p).bind (·.get? q) := by
  simp only [get?, sub?_append]
  cases b.sub? p <;> rfl

/-- At its place an edit changes the entries, if there is a directory. -/
theorem sub?_edit (f : Entries → Entries) (p : Place) (b : Branch) :
    (b.edit f p).sub? p = (b.sub? p).map (edit f []) := by
  induction p generalizing b with
  | nil => cases b <;> rfl
  | cons name p ih =>
    cases b with
    | file | link => rfl
    | dir es =>
      simp only [edit, sub?, Entries.under?_change, if_true]
      cases Entries.under? name es with
      | none => rfl
      | some b => exact ih b

/-- An edit is not seen but below its place. -/
theorem get?_edit_of_outside {f : Entries → Entries} {p q : Place} (b : Branch)
    (h : ∀ r, q = p ++ r → r = []) : (b.edit f p).get? q = b.get? q := by
  induction p generalizing b q with
  | nil =>
    have : q = [] := h q rfl
    subst this
    cases b <;> simp [edit, node]
  | cons name p ih =>
    cases b with
    | file | link => rfl
    | dir es =>
      cases q with
      | nil => simp [edit, node]
      | cons other q =>
        simp only [edit, get?_dir_cons, Entries.under?_change]
        by_cases ho : other = name
        · subst ho
          rw [if_pos rfl]
          cases Entries.under? other es with
          | none => rfl
          | some b => exact ih b fun r hr => h r (by rw [hr]; rfl)
        · rw [if_neg ho]

/-- Well-formed branches with the same nodes at the same places are equal. -/
theorem ext {a b : Branch} (ha : a.WellFormed) (hb : b.WellFormed) (h : ∀ p, a.get? p = b.get? p) :
    a = b := by
  induction ha generalizing b with
  | file bytes =>
    have h := h []
    cases b <;> simp only [get?_nil, node] at h <;> cases h
    rfl
  | link target =>
    have h := h []
    cases b <;> simp only [get?_nil, node] at h <;> cases h
    rfl
  | dir es hs _ he ih =>
    cases hb with
    | file | link => simpa [node] using h []
    | dir fs ht _ hf =>
      congr 1
      refine Entries.eq_of_under? hs ht fun name => ?_
      have hn := fun p => h (name :: p)
      simp only [get?_dir_cons] at hn
      cases hx : Entries.under? name es with
      | none =>
        cases hy : Entries.under? name fs with
        | none => rfl
        | some y => simpa [hx, hy] using hn []
      | some x =>
        cases hy : Entries.under? name fs with
        | none => simpa [hx, hy] using hn []
        | some y =>
          have mx := Entries.mem_of_under? hx
          have my := Entries.mem_of_under? hy
          exact congrArg some (ih _ mx (hf _ my) fun p => by simpa [hx, hy] using hn p)

theorem mem_descendantsOf {es : Entries} {p : Place} {n : Node} :
    (p, n) ∈ descendantsOf es ↔ ∃ e ∈ es,
      (p = [e.1] ∧ n = e.2.node) ∨ ∃ q, p = e.1 :: q ∧ (q, n) ∈ e.2.descendants := by
  induction es with
  | nil => simp [descendantsOf]
  | cons e es ih =>
    simp only [descendantsOf, List.cons_append, List.mem_cons, List.mem_append, ih, List.mem_map,
      Prod.mk.injEq, Prod.exists, exists_eq_or_imp]
    grind

/-- Only well-formed names lead to a node. -/
theorem isEntryName_of_get? {b : Branch} (hb : b.WellFormed) {p : Place} (h : b.get? p ≠ none) :
    ∀ name ∈ p, isEntryName name = true := by
  induction p generalizing b with
  | nil => simp
  | cons name p ih =>
    cases hb with
    | file | link => exact absurd rfl h
    | dir es _ hn he =>
      rw [get?_dir_cons] at h
      cases hu : Entries.under? name es with
      | none => exact absurd (by rw [hu]; rfl) h
      | some c =>
        have hm := Entries.mem_of_under? hu
        rw [hu] at h
        intro other ho
        rcases List.mem_cons.1 ho with rfl | ho
        · exact hn _ hm
        · exact ih (he _ hm) h other ho

/-- What is listed is what stands at a place other than the branch's own. -/
theorem mem_descendants {b : Branch} (hb : b.WellFormed) {p : Place} {n : Node} :
    (p, n) ∈ b.descendants ↔ p ≠ [] ∧ b.get? p = some n := by
  induction hb generalizing p n with
  | file bytes =>
    cases p with
    | nil => simp [descendants]
    | cons name p => simp [descendants, get?, sub?]
  | link target =>
    cases p with
    | nil => simp [descendants]
    | cons name p => simp [descendants, get?, sub?]
  | dir es hs _ he ih =>
    rw [descendants, mem_descendantsOf]
    constructor
    · rintro ⟨e, hm, ⟨rfl, rfl⟩ | ⟨q, rfl, hq⟩⟩
      · simp [get?_dir_cons, Entries.under?_of_mem hs hm]
      · simpa [get?_dir_cons, Entries.under?_of_mem hs hm] using ((ih e hm).1 hq).2
    · rintro ⟨hne, h⟩
      cases p with
      | nil => exact absurd rfl hne
      | cons name p =>
        rw [get?_dir_cons] at h
        obtain ⟨b, hu, hb⟩ := Option.bind_eq_some_iff.1 h
        have hm := Entries.mem_of_under? hu
        refine ⟨_, hm, ?_⟩
        cases p with
        | nil => exact .inl ⟨rfl, by simpa using hb.symm⟩
        | cons other p => exact .inr ⟨_, rfl, (ih _ hm).2 ⟨by simp, hb⟩⟩

end Branch

end Datapack
