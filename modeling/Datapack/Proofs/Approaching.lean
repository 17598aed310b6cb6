import Datapack.Proofs.Removing

/-
  Datapack.Proofs.Approaching — a directory while what is in it goes.

  A path leads to a directory, maybe along links. If it would do so as well with nothing in
  the directory (`FileTree.emptied`), then whatever is taken out of the directory the path
  leads there still. All that takes is some tree with the way to the directory in it, and
  nothing inside (`Approach`, `approach_emptied`): wherever that tree is a part of another,
  the path leads to the directory, and with more names behind it to what is in it
  (`Approach.walk_keep`, `Approach.walk_dir`).

  What the path of an entry leads to is there (`locate_of_approach`), and the path itself
  leads to the directory or to a link, for who keeps it (`node_keep_cases`).
-/

namespace Datapack

/-! ## The way to a directory -/

/-- The path of what lies at `rel` in the directory that `p` leads to. -/
def Path.down (p : Path) (rel : Place) : Path := .ofPlace (p.names ++ rel)

namespace Path

variable {p : Path} {rel : Place}

theorem IsCanonical.down_nil (hp : p.IsCanonical) : p.down [] = p := by
  rw [down, List.append_nil, ← hp.eq_ofPlace]

theorem names_down (p : Path) (h : ∀ name ∈ rel, isEntryName name = true) :
    (p.down rel).names = p.names ++ rel := by
  refine names_ofPlace fun name hm => ?_
  rcases List.mem_append.1 hm with hm | hm
  · exact isStretch_of_mem_names hm
  · exact isStretch_of_isEntryName (h name hm)

theorem IsCanonical.down (hp : p.IsCanonical) (h : ∀ name ∈ rel, isEntryName name = true) :
    (p.down rel).IsCanonical := by
  refine ⟨by rw [names_down p h]; rfl, ?_⟩
  rw [names_down p h]
  intro name hm
  rcases List.mem_append.1 hm with hm | hm
  · exact hp.clean name hm
  · obtain ⟨_, hdot, hdots, _⟩ := isEntryName_iff.1 (h name hm)
    exact ⟨hdot, hdots⟩

theorem hasNul_down (hp : p.hasNul = false) (h : ∀ name ∈ rel, isEntryName name = true) :
    (p.down rel).hasNul = false := by
  refine hasNul_ofSteps fun name hm => ?_
  rcases List.mem_append.1 hm with hm | hm
  · exact isStepName_of_mem_names hp hm
  · exact (isEntryName_iff.1 (h name hm)).1

theorem IsCanonical.child_down (hp : p.IsCanonical) (h : ∀ name ∈ rel, isEntryName name = true)
    {name : String} (hname : isEntryName name = true) :
    (p.down rel).child name = p.down (rel ++ [name]) := by
  rw [(hp.down h).child_eq (isStretch_of_isEntryName hname), names_down p h, List.append_assoc]
  rfl

end Path

def FileTree.emptied (t : FileTree) (top : Place) : FileTree :=
  t.edit top (fun _ => []) fun _ _ => .dir [] List.Pairwise.nil (by simp) (by simp)

theorem FileTree.get?_emptied (t : FileTree) (top q : Place) :
    (t.emptied top).get? q = if top <+: q ∧ q ≠ top then none else t.get? q := by
  by_cases hq : ∃ name rest, q = top ++ name :: rest
  · obtain ⟨name, rest, rfl⟩ := hq
    rw [emptied, get?_edit_child, if_pos ⟨List.prefix_append _ _, by simp⟩]
    cases t.root.sub? top with
    | none => rfl
    | some b => cases b <;> rfl
  · rw [emptied, get?_edit_of_outside t _ _ hq, if_neg]
    rintro ⟨⟨rest, rfl⟩, hne⟩
    obtain ⟨name, rest, rfl⟩ := List.exists_cons_of_ne_nil (l := rest) (by simpa using hne)
    exact hq ⟨name, rest, rfl⟩

theorem FileTree.within_emptied (t : FileTree) (top : Place) : (t.emptied top).Within t := by
  intro q node hq
  rw [get?_emptied] at hq
  split at hq
  · cases hq
  · exact hq

/-- In the tree `o` the path leads to a directory with nothing in it. -/
structure Approach (p : Path) (top : Place) (o : FileTree) : Prop where
  leads : o.Leads .follow maxLinks [] p.names (.node top)
  dir : o.get? top = some .dir
  bare : ∀ rel, rel ≠ [] → o.get? (top ++ rel) = none

namespace Approach

variable {p : Path} {top rel : Place} {o t : FileTree}

/-- With all that stands on the way to the directory, a path leads on to what is in it. -/
theorem walk_keep (h : Approach p top o) (ho : o.Within t)
    (hkeep : rel = [] → o.Leads .keep maxLinks [] p.names (.node top))
    (hget : t.get? (top ++ rel) ≠ none) : t.walk .keep maxLinks [] (p.names ++ rel) =
      .ok (.node (top ++ rel)) := by
  have hclean : Path.Clean rel := fun name hm => by
    obtain ⟨_, hdot, hdots, _⟩ := isEntryName_iff.1 (FileTree.isEntryName_of_there hget name hm)
    exact ⟨hdot, hdots⟩
  by_cases hrel : rel = []
  · rw [hrel, List.append_nil, List.append_nil]
    exact ((hkeep hrel).node_of_outlines ho.outlines).walk
  · obtain ⟨left, hleft⟩ := (h.leads.node_of_outlines ho.outlines).continue hrel
    rw [hleft .keep]
    exact (FileTree.Leads.here (FileTree.advance_keep_to hclean hget)).walk

theorem walk_dir (h : Approach p top o) (ho : o.Within t)
    (hget : t.get? (top ++ rel) = some .dir) :
    t.walk .follow maxLinks [] (p.names ++ rel) = .ok (.node (top ++ rel)) := by
  by_cases hrel : rel = []
  · rw [hrel, List.append_nil, List.append_nil]
    exact (h.leads.node_of_outlines ho.outlines).walk
  · have hkeep := FileTree.leads_of_walk
      (h.walk_keep ho (fun he => absurd he hrel) (by rw [hget]; simp))
    exact (hkeep.of_keep_node (by simp [hget])).walk

end Approach

namespace Disk

variable {d : Disk} {p : Path} {top : Place} {o : FileTree}

theorem approach_emptied (hp : p.IsCanonical) (hdir : d.isDir p = true)
    (hway : (d.tree.emptied top).walk .follow maxLinks [] p.names = .ok (.node top)) :
    Approach p top (d.tree.emptied top) := by
  have hleads := FileTree.leads_of_walk hway
  refine ⟨hleads, ?_, fun rel hrel => ?_⟩
  · obtain ⟨_, _, q, hq, hget⟩ := (node_iff hp).1 (isDir_iff_node.1 hdir)
    have hsame := (hleads.node_of_outlines (d.tree.within_emptied top).outlines).walk
    rw [hq.walk] at hsame
    cases hsame
    rw [FileTree.get?_emptied, if_neg (by simp), hget]
  · rw [FileTree.get?_emptied, if_pos ⟨List.prefix_append _ _, by simpa using hrel⟩]

/-- Who keeps the last link of a path to a directory finds the directory itself, or a link. -/
theorem node_keep_cases (hp : p.IsCanonical) (ha : Approach p top o) (ho : o.Within d.tree)
    (hdir : d.isDir p = true) :
    (d.node .keep p = .ok .dir ∧ o.Leads .keep maxLinks [] p.names (.node top)) ∨
      ∃ target, d.node .keep p = .ok (.link target) := by
  obtain ⟨hnul, htext, _⟩ := (node_iff hp).1 (isDir_iff_node.1 hdir)
  have hfollow := ha.leads.node_of_outlines ho.outlines
  obtain ⟨q, hq⟩ : ∃ q, o.Leads .keep maxLinks [] p.names (.node q) := by
    rcases ha.leads.keep_cases with hk | hk
    · exact hk
    · exact ⟨top, hk⟩
  have hkeep := hq.node_of_outlines ho.outlines
  obtain ⟨node, hnode⟩ : ∃ node, d.tree.get? q = some node :=
    Option.ne_none_iff_exists'.1 (land_names_fitsIn hp.isAbsolute
      ((land_iff hp.isAbsolute).2 ⟨hnul, htext, hkeep⟩))
  have hfound : d.node .keep p = .ok node := (node_iff hp).2 ⟨hnul, htext, q, hkeep, hnode⟩
  by_cases hlink : ∃ target, node = .link target
  · obtain ⟨target, rfl⟩ := hlink
    exact .inr ⟨target, hfound⟩
  · -- What is no link is what all walks find, so it is the directory.
    have hsame := (hkeep.of_keep_node fun target he => by
      rw [hnode] at he
      exact hlink ⟨target, Option.some.inj he⟩).walk
    rw [hfollow.walk] at hsame
    cases hsame
    rw [ho _ _ ha.dir] at hnode
    cases hnode
    exact .inl ⟨hfound, hq⟩

theorem get?_below_of_list_nil (hp : p.IsCanonical) (ha : Approach p top o) (ho : o.Within d.tree)
    (hdir : d.isDir p = true) (hlist : d.list p = .ok []) {rel : Place} (hrel : rel ≠ []) :
    d.tree.get? (top ++ rel) = none := by
  obtain ⟨hnul, htext, _⟩ := (node_iff hp).1 (isDir_iff_node.1 hdir)
  have hland : d.land .follow p p.steps = .ok (.node top) := by
    rw [steps_of_isCanonical hp]
    exact (land_iff hp.isAbsolute).2 ⟨hnul, htext, ha.leads.node_of_outlines ho.outlines⟩
  rw [list_of_land hland (ho _ _ ha.dir)] at hlist
  obtain ⟨name, rest, rfl⟩ := List.exists_cons_of_ne_nil hrel
  rw [← List.singleton_append, ← List.append_assoc]
  refine FileTree.get?_append_of_none (Decidable.not_not.1 fun hthere => ?_) rest
  obtain ⟨node, hnode⟩ := Option.ne_none_iff_exists'.1 hthere
  have hm := FileTree.mem_entries.2 hnode
  rw [Except.ok.inj hlist] at hm
  cases hm

/-- The path of an entry that is there leads to something. -/
theorem locate_of_approach (hp : p.IsCanonical) (hnul : p.hasNul = false) (ha : Approach p top o)
    (ho : o.Within d.tree) {rel : Place} (hthere : d.tree.get? (top ++ rel) ≠ none) :
    ∃ place, d.locate .keep (p.down rel) (p.down rel).names = .ok (.node place) ∧
      d.tree.get? place ≠ none := by
  have hentries := FileTree.isEntryName_of_there hthere
  have hq := (hp.down hentries).isAbsolute
  obtain ⟨place, hw⟩ : ∃ place,
      d.tree.walk .keep maxLinks [] (p.down rel).names = .ok (.node place) := by
    rw [Path.names_down p hentries]
    by_cases hrel : rel = []
    · rw [hrel, List.append_nil]
      rcases (ha.leads.node_of_outlines ho.outlines).keep_cases with ⟨q, hk⟩ | hk
      · exact ⟨q, hk.walk⟩
      · exact ⟨top, hk.walk⟩
    · exact ⟨_, ha.walk_keep ho (fun he => absurd he hrel) hthere⟩
  refine ⟨place, ?_, FileTree.walk_fitsIn (by simp)
    (fun name hm => isStepName_of_mem_names (Path.hasNul_down hnul hentries) hm) hw⟩
  unfold locate
  rw [if_neg (Path.text_ne_empty hq), if_pos hq, hw]

end Disk

end Datapack
