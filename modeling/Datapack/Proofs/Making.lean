import Datapack.Proofs.Continuing
import Datapack.Proofs.Sequences

/-
  Datapack.Proofs.Making — making directories and providing files, links or not.

  Making a directory with its ancestors never takes anything away, and what it adds are
  directories that first stretches of the path lead to (`Disk.Paves`); so whatever a path
  led to, it leads to still (`node_of_within`). If it succeeds, the path leads to a
  directory (`isDir_of_makeDirs`). If it fails, it has made at most directories along the
  path above (`paves_of_makeDirs_failed`), and none if a directory was there
  (`makeDirs_failed`).

  Providing a file is the same with one file more (`provide_cases`), and a failure leaves
  what making the directory above has left (`provide_failed_cases`).
-/

namespace Datapack

namespace Path

/-- More than enough of them are asked for: there is one for each name, and the root. -/
theorem upTo_eq {p : Path} (hp : p.IsClean) {n m : Nat} (hn : p.names.length < n)
    (hm : p.names.length < m) : ancestors.upTo n p = ancestors.upTo m p := by
  induction n generalizing m p with
  | zero => cases hn
  | succ n ih =>
    cases m with
    | zero => cases hm
    | succ m =>
      rw [ancestors.upTo, ancestors.upTo]
      rcases hp.parent?_cases with ⟨_, hnone⟩ | ⟨q, hq, hne, hclean, hnames⟩
      · rw [hnone]
      · have hpos := List.length_pos_iff.2 hne
        have hlen : q.names.length = p.names.length - 1 := by rw [hnames, List.length_dropLast]
        have hlater : ancestors.upTo n q = ancestors.upTo m q :=
          ih hclean (by omega) (by omega)
        simp only [hq, hlater]

theorem ancestors_eq {p : Path} (hp : p.IsClean) : p.ancestors = p :: match p.parent? with
    | none => []
    | some above => above.ancestors := by
  unfold ancestors
  rw [ancestors.upTo, if_neg (text_ne_empty hp.isAbsolute)]
  rcases hp.parent?_cases with ⟨_, hnone⟩ | ⟨q, hq, hne, hclean, hnames⟩
  · rw [hnone]
  · have hpos := List.length_pos_iff.2 hne
    have hlen : q.names.length = p.names.length - 1 := by rw [hnames, List.length_dropLast]
    have hp' := hp.length_names_le
    have hq' := hclean.length_names_le
    have hlater : ancestors.upTo p.text.length q = ancestors.upTo (q.text.length + 1) q :=
      upTo_eq hclean (by omega) (by omega)
    simp only [hq, hlater]

theorem IsCanonical.of_parent? {p q : Path} (hp : p.IsCanonical) (h : p.parent? = some q) :
    q.IsCanonical := by
  have hstretch : ∀ n ∈ p.names.dropLast, IsStretch n :=
    fun n hn => isStretch_of_mem_names (List.dropLast_subset _ hn)
  rw [hp.parent?] at h
  split at h
  · cases h
  · cases h
    refine ⟨?_, ?_⟩
    · rw [names_ofPlace hstretch]
    · rw [names_ofPlace hstretch]
      exact fun n hn => hp.clean n (List.dropLast_subset _ hn)

theorem isCanonical_of_mem_ancestors {p q : Path} (hp : p.IsCanonical) (h : q ∈ p.ancestors) :
    q.IsCanonical := by
  have upTo : ∀ (n : Nat) (p : Path), p.IsCanonical → q ∈ ancestors.upTo n p → q.IsCanonical := by
    intro n
    induction n with
    | zero => intro p _ h; cases h
    | succ n ih =>
      intro p hp h
      rw [ancestors.upTo, if_neg (text_ne_empty hp.isAbsolute)] at h
      rcases List.mem_cons.1 h with rfl | h
      · exact hp
      · split at h
        · cases h
        · rename_i above ha
          exact ih above (hp.of_parent? ha) h
  exact upTo _ p hp h

end Path

namespace Disk

variable {d d' d'' : Disk} {p q : Path}

/-! ## More on the disk -/

/-- Whatever a path led to, it leads to still when more is there. -/
theorem node_of_within (h : d.tree.Within d'.tree) (hp : p.isAbsolute = true) {last : LastLink}
    {node : Node} (hn : d.node last p = .ok node) : d'.node last p = .ok node := by
  obtain ⟨hnul, hlen, place, hleads, hget⟩ := (node_iff_steps hp).1 hn
  exact (node_iff_steps hp).2 ⟨hnul, hlen, place, hleads.node_of_outlines h.outlines, h place node hget⟩

theorem isDir_of_within (h : d.tree.Within d'.tree) (hp : p.isAbsolute = true)
    (hd : d.isDir p = true) : d'.isDir p = true :=
  isDir_iff_node.2 (node_of_within h hp (isDir_iff_node.1 hd))

/-- What is put at a free place adds to the tree. -/
theorem Sets.within {place : Place} {node : Option Node} (h : d.Sets d' place node)
    (hfree : d.tree.get? place = none) : d.tree.Within d'.tree := by
  intro q n hq
  rw [h.get?_of_ne, hq]
  rintro rfl
  rw [hfree] at hq
  cases hq

/-- A walk that ended on the free name ends on what stands there now. -/
theorem Sets.leads {dir : Place} {name : String} {node : Node}
    (h : d.Sets d' (dir ++ [name]) (some node)) (hfree : d.tree.get? (dir ++ [name]) = none)
    (hlink : ∀ target, node ≠ .link target) {last : LastLink} {names : List String}
    (hl : d.tree.Leads last maxLinks [] names (.vacant dir name)) :
    d'.tree.Leads last maxLinks [] names (.node (dir ++ [name])) :=
  hl.vacant_of_outlines (h.within hfree).outlines h.get? hlink

/-! ## Directories along a path -/

/-- From `d` to `d'` some directories have been made, at places that first stretches of
the path `p` lead to. -/
def Paves (p : Path) (d d' : Disk) : Prop :=
  ∀ place, d'.tree.get? place = d.tree.get? place ∨
    d.tree.get? place = none ∧ d'.tree.get? place = some .dir ∧
      ∃ q : Path, q.IsCanonical ∧ q.names <+: p.names ∧
        d'.tree.Leads .follow maxLinks [] q.names (.node place)

namespace Paves

theorem refl (p : Path) (d : Disk) : d.Paves p d := fun _ => .inl rfl

theorem mkdir (h : d.Paves p d') (hq : q.IsCanonical) (hpre : q.names <+: p.names)
    (hm : d'.mkdir q = .ok d'') : d.Paves p d'' := by
  obtain ⟨dir, name, hl, hfree, hset⟩ := mkdir_lands hm
  obtain ⟨_, _, hleads⟩ := (land_iff hq.isAbsolute).1 hl
  have hwithin := hset.within hfree
  intro place
  by_cases hplace : place = dir ++ [name]
  · subst hplace
    have hnone : d.tree.get? (dir ++ [name]) = none := by
      rcases h (dir ++ [name]) with he | ⟨hnone, _⟩
      · rw [← he, hfree]
      · exact hnone
    have hthere := hset.leads hfree (by simp) (hleads.of_keep_vacant .follow)
    exact .inr ⟨hnone, hset.get?, q, hq, hpre, hthere⟩
  · rw [hset.get?_of_ne hplace]
    rcases h place with he | ⟨hnone, hdir, r, hr, hrpre, hrleads⟩
    · exact .inl he
    · exact .inr ⟨hnone, hdir, r, hr, hrpre, hrleads.node_of_outlines hwithin.outlines⟩

/-- Directories along a path above are made on the way to it. -/
theorem makeDirsUp {ps : List Path} (hps : ∀ q ∈ ps, q.IsCanonical ∧ q.names <+: p.names) :
    d.Paves p (Disk.makeDirsUp ps d).1 := by
  refine makeDirsUp_keeps ?_ (Paves.refl p d)
  intro d₁ d₂ q hq h hm
  exact h.mkdir (hps q hq).1 (hps q hq).2 hm

theorem makeDirs (hp : p.IsCanonical) : d.Paves p (d.makeDirs p).1 :=
  makeDirsUp fun _ hq =>
    ⟨Path.isCanonical_of_mem_ancestors hp hq, (Path.mem_ancestors hp.isAbsolute hq).2⟩

end Paves

/-! ## Making a directory -/

theorem isDir_of_mkdir (hp : p.IsCanonical) (h : d.mkdir p = .ok d') : d'.isDir p = true := by
  obtain ⟨dir, name, hl, hfree, hset⟩ := mkdir_lands h
  obtain ⟨hnul, hlen, hleads⟩ := (land_iff hp.isAbsolute).1 hl
  have hthere := hset.leads hfree (by simp) (hleads.of_keep_vacant .follow)
  exact isDir_iff_node.2 ((node_iff hp).2 ⟨hnul, hlen, _, hthere, hset.get?⟩)

/-- Where a directory is, even at the end of a link, none can be made. -/
theorem mkdir_of_isDir (h : d.isDir p = true) : d.mkdir p = .error .alreadyExists := by
  unfold mkdir
  rcases land_keep_of_isDir h with hl | ⟨q, hl⟩
  · rw [hl]
  · rw [hl]

theorem makeDirsUp_of_isDir (h : d.isDir p = true) (above : List Path) :
    makeDirsUp (p :: above) d = (d, .ok ()) := by
  rw [makeDirsUp, mkdir_of_isDir h]
  simp only [h, if_true]

theorem makeDirs_of_isDir (h : d.isDir p = true) : d.makeDirs p = (d, .ok ()) := by
  have htext : p.text ≠ "" := by
    rcases land_of_isDir_cases h with ⟨q, hl, _⟩ | hl
    · exact (begins_of_locate (land_iff_locate.1 hl).2.2).1
    · exact (begins_of_locate (land_iff_locate.1 hl).2.2).1
  unfold makeDirs Path.ancestors
  rw [Path.ancestors.upTo, if_neg htext]
  exact makeDirsUp_of_isDir h _

/-- The directories above cannot be made, or the last call tells how it ends: a `mkdir` on
the disk as it was, or on the one with those directories. -/
theorem makeDirsUp_cases (p : Path) (above : List Path) (d : Disk) :
    (∃ e f, makeDirsUp above d = (e, .error f) ∧ makeDirsUp (p :: above) d = (e, .error f)) ∨
    ∃ e, (e = d ∨ makeDirsUp above d = (e, .ok ())) ∧
      ((∃ d', e.mkdir p = .ok d' ∧ makeDirsUp (p :: above) d = (d', .ok ())) ∨
        ∃ f, e.mkdir p = .error f ∧
          makeDirsUp (p :: above) d = (e, if e.isDir p then .ok () else .error f)) := by
  rw [makeDirsUp]
  split
  · rename_i d' hm
    exact .inr ⟨d, .inl rfl, .inl ⟨d', hm, rfl⟩⟩
  · split
    · rename_i e f hup
      exact .inl ⟨e, f, hup, rfl⟩
    · rename_i e hup
      split
      · rename_i d' hm
        exact .inr ⟨e, .inr hup, .inl ⟨d', hm, rfl⟩⟩
      · rename_i f hm
        exact .inr ⟨e, .inr hup, .inr ⟨f, hm, rfl⟩⟩
  · rename_i f _ hm
    exact .inr ⟨d, .inl rfl, .inr ⟨f, hm, rfl⟩⟩

/-- Whether a directory was made or found there, the path leads to one. -/
theorem isDir_of_makeDirs (hp : p.IsCanonical) (h : (d.makeDirs p).2 = .ok ()) :
    (d.makeDirs p).1.isDir p = true := by
  unfold makeDirs at h ⊢
  rw [Path.ancestors_eq hp.isClean] at h ⊢
  rcases makeDirsUp_cases p _ d with ⟨e, f, _, hr⟩ | ⟨e, _, ⟨d', hm, hr⟩ | ⟨f, _, hr⟩⟩
  · rw [hr] at h
    cases h
  · rw [hr]
    exact isDir_of_mkdir hp hm
  · rw [hr] at h ⊢
    by_cases hdir : e.isDir p = true
    · exact hdir
    · simp [hdir] at h

/-- What fails with the directory above in place, or where there is none above, has made
nothing. -/
theorem makeDirs_failed (hp : p.IsCanonical) (habove : ∀ q, p.parent? = some q → d.isDir q = true)
    {f : Fault} (h : (d.makeDirs p).2 = .error f) : (d.makeDirs p).1 = d := by
  have upwards : makeDirsUp (match p.parent? with
      | none => []
      | some above => above.ancestors) d = (d, .ok ()) := by
    cases hq : p.parent? with
    | none => rfl
    | some above => exact makeDirs_of_isDir (habove above hq)
  unfold makeDirs at h ⊢
  rw [Path.ancestors_eq hp.isClean] at h ⊢
  rcases makeDirsUp_cases p _ d with ⟨e, f, hup, _⟩ | ⟨e, he, ⟨d', _, hr⟩ | ⟨f, _, hr⟩⟩
  · rw [upwards] at hup
    cases hup
  · rw [hr] at h
    cases h
  · rw [hr]
    rcases he with rfl | hup
    · rfl
    · rw [upwards] at hup
      cases hup
      rfl

/-- At the path itself nothing is made by an attempt that fails. -/
theorem paves_of_makeDirs_failed {above : Path} (hp : p.IsCanonical) (ha : p.parent? = some above)
    {f : Fault} (h : (d.makeDirs p).2 = .error f) : d.Paves above (d.makeDirs p).1 := by
  have upwards : d.Paves above (makeDirsUp above.ancestors d).1 := Paves.makeDirs (hp.of_parent? ha)
  unfold makeDirs at h ⊢
  rw [Path.ancestors_eq hp.isClean, ha] at h ⊢
  rcases makeDirsUp_cases p above.ancestors d with ⟨e, f, hup, hr⟩ | ⟨e, he, ⟨d', _, hr⟩ | ⟨f, _, hr⟩⟩
  · rw [hup] at upwards
    rw [hr]
    exact upwards
  · rw [hr] at h
    cases h
  · rw [hr]
    rcases he with rfl | hup
    · exact Paves.refl above e
    · rw [hup] at upwards
      exact upwards

/-! ## Providing a file -/

/-- An attempt that fails has made directories along the path above at most, and none at
all if that one was there. -/
theorem provide_failed_cases (hp : p.IsCanonical) {f : Fault}
    (h : (OutputStack.provide d p).2 = .error f) : (OutputStack.provide d p).1 = d ∨
      ∃ above, p.parent? = some above ∧ d.isDir above = false ∧
        d.Paves above (OutputStack.provide d p).1 := by
  have made : (OutputStack.provide d p).1 = (OutputStack.makeParents d p).1 := by
    rcases provide_cases d p with ⟨_, he⟩ | ⟨_, he⟩ | ⟨_, _, _, he⟩
    · rw [he] at h
      cases h
    · rw [he]
    · rw [he] at h
      cases h
  rw [made]
  unfold OutputStack.makeParents
  cases ha : p.parent? with
  | none => exact .inl rfl
  | some above =>
    have habove := hp.of_parent? ha
    by_cases hdir : d.isDir above = true
    · left
      simp only [makeDirs_of_isDir hdir]
    · right
      exact ⟨above, rfl, by simpa using hdir, Paves.makeDirs habove⟩

end Disk

end Datapack
