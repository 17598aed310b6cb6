import Datapack.Proofs.Following

/-
  Datapack.Proofs.Inventory — the list of what lies below a place.

  Each node is listed once: the list is in strictly ascending order of the names that lead
  to its nodes (`below_ascending`), so it has no duplicates (`nodup_below`), and of two
  trees it can be told what one has and the other has not. Where `gone` is what has been
  taken out of a tree, the list of the whole tree is that of what is left together with
  `gone` (`below_perm_of_taken`, `countP_gone`).

  So the nodes of some kind in a tree can be counted (`FileTree.count`), and what has been
  taken counts for as much as is missing: one node (`Loses.count`), or all that lay below a
  place (`count_of_emptied`, `count_of_removed`).
-/

namespace Datapack

/-! ## Order -/

namespace Branch

/-- What stands at and below sorted entries is in order, if it is below each of them. -/
theorem descendantsOf_ascending {es : Entries} (hs : es.Sorted)
    (he : ∀ e ∈ es, e.2.WellFormed ∧ e.2.descendants.Pairwise fun x y => x.1 < y.1) :
    (descendantsOf es).Pairwise fun x y => x.1 < y.1 := by
  induction es with
  | nil => exact List.Pairwise.nil
  | cons e es ih =>
    obtain ⟨name, b⟩ := e
    obtain ⟨hfirst, hrest⟩ := List.pairwise_cons.1 hs
    obtain ⟨hwf, hbelow⟩ := he (name, b) List.mem_cons_self
    -- A directory comes before its contents, and all of them before the next name.
    have hcontents : (b.descendants.map fun x => (name :: x.1, x.2)).Pairwise
        fun x y => x.1 < y.1 := by
      refine List.pairwise_map.2 (hbelow.imp ?_)
      intro x y hxy
      exact List.cons_lt_cons_iff.2 (.inr ⟨rfl, hxy⟩)
    have hafter : ∀ p : Place, ∀ y ∈ descendantsOf es, name :: p < y.1 := by
      rintro p ⟨q, node⟩ hy
      obtain ⟨other, hm, hq⟩ := mem_descendantsOf.1 hy
      have hlt : name < other.1 := hfirst other hm
      rcases hq with ⟨rfl, _⟩ | ⟨rest, rfl, _⟩
      · exact List.cons_lt_cons_iff.2 (.inl hlt)
      · exact List.cons_lt_cons_iff.2 (.inl hlt)
    rw [descendantsOf, List.cons_append, List.pairwise_cons]
    constructor
    · intro y hy
      rcases List.mem_append.1 hy with hy | hy
      · obtain ⟨⟨p, node⟩, hm, rfl⟩ := List.mem_map.1 hy
        have hne : p ≠ [] := ((mem_descendants hwf).1 hm).1
        obtain ⟨first, rest, rfl⟩ := List.exists_cons_of_ne_nil hne
        exact List.cons_lt_cons_iff.2 (.inr ⟨rfl, List.nil_lt_cons _ _⟩)
      · exact hafter [] y hy
    · refine List.pairwise_append.2 ⟨hcontents, ih hrest fun e hm => he e (List.mem_cons_of_mem _ hm), ?_⟩
      intro x hx y hy
      obtain ⟨⟨p, node⟩, _, rfl⟩ := List.mem_map.1 hx
      exact hafter p y hy

theorem descendants_ascending {b : Branch} (hb : b.WellFormed) :
    b.descendants.Pairwise fun x y => x.1 < y.1 := by
  induction hb with
  | file | link => exact List.Pairwise.nil
  | dir es hs _ he ih => exact descendantsOf_ascending hs fun e hm => ⟨he e hm, ih e hm⟩

end Branch

namespace FileTree

variable {t t' : FileTree} {place : Place}

/-- What lies below a place is listed in the order of the names that lead there. -/
theorem below_ascending (t : FileTree) (place : Place) :
    (t.below place).Pairwise fun x y => x.1 < y.1 := by
  unfold below
  cases hb : t.root.sub? place with
  | none => exact List.Pairwise.nil
  | some b => exact Branch.descendants_ascending (t.wellFormed.sub? hb)

theorem nodup_below (t : FileTree) (place : Place) : (t.below place).Nodup := by
  refine (t.below_ascending place).imp ?_
  rintro x y hlt rfl
  exact List.lt_irrefl _ hlt

theorem nodup_names (t : FileTree) (dir : Place) : (t.names dir).Nodup := by
  unfold names entries
  cases hb : t.root.sub? dir with
  | none => exact List.nodup_nil
  | some b =>
    cases t.wellFormed.sub? hb with
    | file | link => exact List.nodup_nil
    | dir es hs _ _ =>
      simp only [List.map_map]
      refine List.pairwise_map.2 (hs.imp ?_)
      intro a b hlt heq
      have heq : a.1 = b.1 := heq
      rw [heq] at hlt
      exact String.lt_irrefl _ hlt

/-! ## What one tree has and another has not -/

/-- What was there is what is left, and what has been taken. -/
theorem below_perm_of_taken {gone : List (Place × Node)} (hnodup : gone.Nodup)
    (hgone : ∀ x ∈ gone, x ∈ t.below [])
    (h : ∀ q node, t'.get? q = some node ↔ t.get? q = some node ∧ (q, node) ∉ gone) :
    (t.below []).Perm (t'.below [] ++ gone) := by
  have hleft : ∀ x, x ∈ t'.below [] ↔ x ∈ t.below [] ∧ x ∉ gone := by
    rintro ⟨q, node⟩
    rw [mem_below, mem_below, List.nil_append, h q node, and_assoc]
  refine (List.perm_ext_iff_of_nodup (t.nodup_below []) ?_).2 ?_
  · refine List.nodup_append.2 ⟨t'.nodup_below [], hnodup, ?_⟩
    rintro x hx _ hy rfl
    exact ((hleft x).1 hx).2 hy
  · intro x
    rw [List.mem_append, hleft x]
    constructor
    · intro hx
      by_cases hm : x ∈ gone
      · exact .inr hm
      · exact .inl ⟨hx, hm⟩
    · rintro (⟨hx, _⟩ | hx)
      · exact hx
      · exact hgone x hx

/-- A tree that lies within another has lost as many nodes as there are that it has not. -/
theorem countP_gone (h : t'.Within t) :
    (t.below []).countP (fun x => t'.get? x.1 = none) + (t'.below []).length = (t.below []).length := by
  let gone := (t.below []).filter fun x => t'.get? x.1 = none
  have hgone : ∀ x, x ∈ gone ↔ x ∈ t.below [] ∧ t'.get? x.1 = none := fun x => by simp [gone]
  have hperm : (t.below []).Perm (t'.below [] ++ gone) := by
    refine below_perm_of_taken ((t.nodup_below []).filter _) (fun x hx => ((hgone x).1 hx).1) ?_
    intro q node
    constructor
    · intro hq
      refine ⟨h q node hq, fun hm => ?_⟩
      rw [((hgone _).1 hm).2] at hq
      cases hq
    · rintro ⟨hq, hm⟩
      by_cases hroot : q = []
      · rw [hroot, get?_root] at hq ⊢
        exact hq
      · have hthere : t'.get? q ≠ none := fun hnone =>
          hm ((hgone _).2 ⟨mem_below.2 ⟨hroot, hq⟩, hnone⟩)
        obtain ⟨node', hnode'⟩ := Option.ne_none_iff_exists'.1 hthere
        rw [hnode', ← h q node' hnode', hq]
  rw [hperm.length_eq, List.length_append, List.countP_eq_length_filter, Nat.add_comm]

/-- How many nodes there are of some kind, the root aside. -/
def count (t : FileTree) (kind : Node → Bool) : Nat := (t.below []).countP fun x => kind x.2

/-- One node that has gone is missing in the count of its kind. -/
theorem Loses.count {node : Node} (h : t.Loses t' place) (hne : place ≠ [])
    (hget : t.get? place = some node) (kind : Node → Bool) :
    t.count kind = t'.count kind + if kind node then 1 else 0 := by
  have hperm : (t.below []).Perm (t'.below [] ++ [(place, node)]) := by
    refine below_perm_of_taken (by simp) ?_ ?_
    · intro x hx
      rw [List.mem_singleton.1 hx]
      exact mem_below.2 ⟨hne, hget⟩
    · intro q other
      rw [h q, List.mem_singleton, Prod.mk.injEq]
      split
      · rename_i hq
        subst hq
        rw [hget]
        simp [eq_comm]
      · rename_i hq
        simp [hq]
  unfold FileTree.count
  rw [hperm.countP_eq, List.countP_append, List.countP_singleton]

/-- The places below `place` as they are seen from the root. -/
theorem mem_below_from {q : Place} {node : Node} :
    (q, node) ∈ (t.below place).map (fun x => (place ++ x.1, x.2)) ↔
      (place <+: q ∧ q ≠ place) ∧ t.get? q = some node := by
  simp only [List.mem_map, Prod.mk.injEq, Prod.exists, mem_below]
  constructor
  · rintro ⟨rel, n, ⟨hne, hget⟩, rfl, rfl⟩
    exact ⟨⟨List.prefix_append _ _, by simpa using hne⟩, hget⟩
  · rintro ⟨⟨⟨rel, rfl⟩, hne⟩, hget⟩
    exact ⟨rel, node, ⟨by simpa using hne, hget⟩, rfl, rfl⟩

theorem nodup_below_from (t : FileTree) (place : Place) :
    ((t.below place).map fun x => (place ++ x.1, x.2)).Nodup := by
  refine List.pairwise_map.2 ((t.nodup_below place).imp ?_)
  rintro ⟨p, m⟩ ⟨q, n⟩ hne heq
  exact hne (by simpa using heq)

/-- All that lay below a place is missing in the count. -/
theorem count_of_emptied (kind : Node → Bool)
    (h : ∀ q, t'.get? q = if place <+: q ∧ q ≠ place then none else t.get? q) :
    t.count kind = t'.count kind + (t.below place).countP fun x => kind x.2 := by
  have hperm : (t.below []).Perm
      (t'.below [] ++ (t.below place).map fun x => (place ++ x.1, x.2)) := by
    refine below_perm_of_taken (t.nodup_below_from place) ?_ ?_
    · rintro ⟨q, node⟩ hx
      obtain ⟨⟨hpre, hne⟩, hget⟩ := mem_below_from.1 hx
      refine mem_below.2 ⟨?_, hget⟩
      rintro rfl
      exact hne (List.prefix_nil.1 hpre).symm
    · intro q node
      rw [h q, mem_below_from]
      split
      · rename_i hin
        simp [hin]
      · rename_i hout
        simp [hout]
  unfold count
  rw [hperm.countP_eq, List.countP_append, List.countP_map]
  rfl

/-- And so is what stood at the place, if it has gone as well. -/
theorem count_of_removed {node : Node} (hne : place ≠ []) (hget : t.get? place = some node)
    (h : ∀ q, t'.get? q = if place <+: q then none else t.get? q) (kind : Node → Bool) :
    t.count kind = t'.count kind + (t.below place).countP (fun x => kind x.2) +
      if kind node then 1 else 0 := by
  have hperm : (t.below []).Perm
      (t'.below [] ++ ((place, node) :: (t.below place).map fun x => (place ++ x.1, x.2))) := by
    refine below_perm_of_taken ?_ ?_ ?_
    · refine List.nodup_cons.2 ⟨fun hm => ?_, t.nodup_below_from place⟩
      exact (mem_below_from.1 hm).1.2 rfl
    · intro x hx
      rcases List.mem_cons.1 hx with rfl | hx
      · exact mem_below.2 ⟨hne, hget⟩
      · obtain ⟨q, other⟩ := x
        obtain ⟨⟨hpre, _⟩, hother⟩ := mem_below_from.1 hx
        refine mem_below.2 ⟨?_, hother⟩
        rintro rfl
        exact hne (List.prefix_nil.1 hpre)
    · intro q other
      rw [h q, List.mem_cons, Prod.mk.injEq, mem_below_from]
      by_cases hq : q = place
      · subst hq
        simp [hget, eq_comm]
      · split
        · rename_i hin
          simp [hin, hq]
        · rename_i hout
          simp [hout, hq]
  unfold count
  rw [hperm.countP_eq, List.countP_append, List.countP_cons, List.countP_map, Nat.add_assoc]
  rfl

end FileTree

end Datapack
