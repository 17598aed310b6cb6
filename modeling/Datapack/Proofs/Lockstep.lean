import Datapack.Proofs.Twins

/-
  Datapack.Proofs.Lockstep — operations that are made of several calls, on twins.

  Making a directory with its ancestors, providing an output file, laying out a datapack and
  removing a tree go call by call the same way on two disks that are twins, give the same
  answer and leave twins (`Agree`, `Twin.layOut`, `Twin.removeTree`).

  A removal enters no directory deeper than the tree is high, and twins may differ in height.
  But below the path one is as deep as the other, and fuel for that is enough (`Shallow`,
  `Removal.Twin.sweep`).
-/

namespace Datapack

inductive Agree {α : Type} (place : Place) : Disk × α → Disk × α → Prop
  | intro {d e : Disk} (answer : α) : d.Twin place e → Agree place (d, answer) (e, answer)

/-! ## Making and laying out -/

namespace Disk.Twin

variable {place : Place} {d e : Disk} {p : Path}

theorem makeDirsUp {ps : List Path} (hps : ∀ q ∈ ps, q.Along place) (h : d.Twin place e) :
    Agree place (Disk.makeDirsUp ps d) (Disk.makeDirsUp ps e) := by
  induction ps generalizing d e with
  | nil => exact .intro _ h
  | cons p above ih =>
    have hp : p.Along place := hps p List.mem_cons_self
    have failed : ∀ {d e : Disk} (f : Fault), d.Twin place e →
        Agree place (d, if d.isDir p then .ok () else (.error f : Except Fault Unit))
          (e, if e.isDir p then .ok () else .error f) := by
      intro d e f h
      rw [h.isDir hp]
      exact .intro _ h
    have hfirst := h.mkdir hp
    unfold Disk.makeDirsUp
    generalize d.mkdir p = x at hfirst ⊢
    generalize e.mkdir p = y at hfirst ⊢
    cases hfirst with
    | ok h' => exact .intro _ h'
    | error f =>
      -- One fault alone has the paths above tried, on both disks.
      by_cases hf : f = .notFound
      · subst hf
        have hup := ih (fun q hq => hps q (List.mem_cons_of_mem _ hq)) h
        generalize Disk.makeDirsUp above d = x at hup ⊢
        generalize Disk.makeDirsUp above e = y at hup ⊢
        obtain @⟨d₁, e₁, told, h₁⟩ := hup
        cases told with
        | error f => exact .intro _ h₁
        | ok u =>
          have hlast := h₁.mkdir hp
          simp only
          generalize d₁.mkdir p = x at hlast ⊢
          generalize e₁.mkdir p = y at hlast ⊢
          cases hlast with
          | ok h' => exact .intro _ h'
          | error f => exact failed f h₁
      · cases f with
        | notFound => exact absurd rfl hf
        | _ => exact failed _ h

theorem makeDirs (h : d.Twin place e) (hp : p.Along place) :
    Agree place (d.makeDirs p) (e.makeDirs p) := by
  refine h.makeDirsUp fun q hq => ?_
  obtain ⟨habs, hpre⟩ := Path.mem_ancestors hp.isAbsolute hq
  exact hp.of_names habs hpre

theorem makeParents (h : d.Twin place e) (hp : p.Along place) :
    Agree place (OutputStack.makeParents d p) (OutputStack.makeParents e p) := by
  unfold OutputStack.makeParents
  cases hq : p.parent? with
  | none => exact .intro _ h
  | some dir => exact h.makeDirs (hp.parent? hq)

theorem provide (h : d.Twin place e) (hp : p.Confined place) :
    Agree place (OutputStack.provide d p) (OutputStack.provide e p) := by
  have hup := h.makeParents hp.toAlong
  unfold OutputStack.provide
  rw [h.isFile hp.toAlong]
  split
  · exact .intro _ h
  · generalize OutputStack.makeParents d p = x at hup ⊢
    generalize OutputStack.makeParents e p = y at hup ⊢
    obtain @⟨d₁, e₁, told, h₁⟩ := hup
    cases told with
    | error f => exact .intro _ h₁
    | ok u =>
      have hfile := h₁.ensureFile hp
      simp only
      generalize d₁.ensureFile p = x at hfile ⊢
      generalize e₁.ensureFile p = y at hfile ⊢
      cases hfile with
      | error f => exact .intro _ h₁
      | ok h' => exact .intro _ h'

theorem push (h : d.Twin place e) (hp : p.Confined place) (files : OutputStack) :
    Agree place (files.push d p) (files.push e p) := by
  have hprovide := h.provide hp
  unfold OutputStack.push
  generalize OutputStack.provide d p = x at hprovide ⊢
  generalize OutputStack.provide e p = y at hprovide ⊢
  obtain ⟨told, h'⟩ := hprovide
  cases told with
  | error f => exact .intro _ h'
  | ok u => exact .intro _ h'

theorem perform (h : d.Twin place e) {step : LayoutStep} (hp : step.path.Confined place) :
    Agree place (Skeleton.perform d step) (Skeleton.perform e step) := by
  cases step with
  | dir p =>
    have hmade := h.makeDirs hp.toAlong
    simp only [Skeleton.perform, LayoutStep.path] at hmade ⊢
    generalize d.makeDirs p = x at hmade ⊢
    generalize e.makeDirs p = y at hmade ⊢
    obtain ⟨told, h'⟩ := hmade
    cases told with
    | error f => exact .intro _ h'
    | ok u => exact .intro _ h'
  | file p text =>
    have hstored := h.store hp text.toUTF8
    simp only [Skeleton.perform, LayoutStep.path] at hstored ⊢
    generalize d.store p text.toUTF8 = x at hstored ⊢
    generalize e.store p text.toUTF8 = y at hstored ⊢
    cases hstored with
    | error f => exact .intro _ h
    | ok h' => exact .intro _ h'

theorem performAll {steps : List LayoutStep} (hsteps : ∀ step ∈ steps, step.path.Confined place)
    (h : d.Twin place e) :
    (Skeleton.performAll steps d).disk.Twin place (Skeleton.performAll steps e).disk ∧
      (Skeleton.performAll steps d).done = (Skeleton.performAll steps e).done ∧
      (Skeleton.performAll steps d).error = (Skeleton.performAll steps e).error := by
  induction steps generalizing d e with
  | nil => exact ⟨h, rfl, rfl⟩
  | cons step steps ih =>
    have hstep := h.perform (hsteps step List.mem_cons_self)
    unfold Skeleton.performAll
    generalize Skeleton.perform d step = x at hstep ⊢
    generalize Skeleton.perform e step = y at hstep ⊢
    obtain ⟨error, h'⟩ := hstep
    cases error with
    | some f => exact ⟨h', rfl, rfl⟩
    | none =>
      obtain ⟨hdisk, hdone, herror⟩ := ih (fun s hs => hsteps s (List.mem_cons_of_mem _ hs)) h'
      exact ⟨hdisk, congrArg (step :: ·) hdone, herror⟩

theorem layOut (h : d.Twin place e) {root : Path} (hr : root.Confined place)
    {options : SkeletonOptions} (hns : Path.IsStretch options.ns) :
    (Skeleton.layOut root options d).disk.Twin place (Skeleton.layOut root options e).disk ∧
      (Skeleton.layOut root options d).done = (Skeleton.layOut root options e).done ∧
      (Skeleton.layOut root options d).error = (Skeleton.layOut root options e).error := by
  unfold Skeleton.layOut
  exact h.performAll fun step hs => Skeleton.confined_plan hr hns hs

end Disk.Twin

/-! ## Removals -/

namespace Branch

theorem height_lt_heightOf {name : String} {b : Branch} {es : Entries} (h : (name, b) ∈ es) :
    b.height < heightOf es := by
  induction es with
  | nil => cases h
  | cons e es ih =>
    obtain ⟨other, c⟩ := e
    rw [heightOf]
    rcases List.mem_cons.1 h with he | h
    · cases he
      omega
    · have := ih h
      omega

theorem length_le_height {b : Branch} {p : Place} (h : b.get? p ≠ none) : p.length ≤ b.height := by
  induction p generalizing b with
  | nil => exact Nat.zero_le _
  | cons name p ih =>
    cases b with
    | file | link => exact absurd rfl h
    | dir es =>
      rw [get?_dir_cons] at h
      cases hu : Entries.under? name es with
      | none =>
        rw [hu] at h
        exact absurd rfl h
      | some c =>
        rw [hu] at h
        have hdeep := ih h
        have hhigh := height_lt_heightOf (Entries.mem_of_under? hu)
        rw [height, List.length_cons]
        omega

end Branch

theorem FileTree.length_le_height {t : FileTree} {p : Place} (h : t.get? p ≠ none) : p.length ≤ t.height :=
  Nat.le_trans (Branch.length_le_height h) (Nat.le_succ _)

namespace Removal

open Disk

variable {place : Place} {t : FileTree} {r s : Removal}

/-- Two removals that have gone the same way so far, from a disk with the tree `t`. -/
structure Twin (place : Place) (t : FileTree) (r s : Removal) : Prop where
  disk : r.disk.Twin place s.disk
  steps : r.steps = s.steps
  within : r.disk.tree.Within t

theorem within_attempt {x : Listed} (hx : x.path.isAbsolute = true) (h : r.disk.tree.Within t) :
    (r.attempt x).disk.tree.Within t := by
  rcases removes_of_attempt (r := r) (e := x) with hr | hr
  · obtain ⟨q, _, hloses⟩ := hr.loses hx
    exact hloses.within.trans h
  · rw [hr]
    exact h

namespace Twin

theorem note (h : r.Twin place t s) (step : RemovalStep) : (r.note step).Twin place t (s.note step) :=
  ⟨h.disk, congrArg (· ++ [step]) h.steps, h.within⟩

theorem attempt (h : r.Twin place t s) {x : Listed} (hx : x.path.Confined place) :
    (r.attempt x).Twin place t (s.attempt x) := by
  have hcall : Alike (Disk.Twin place)
      (if x.isDir then r.disk.rmdir x.path else r.disk.unlink x.path)
      (if x.isDir then s.disk.rmdir x.path else s.disk.unlink x.path) := by
    split
    · exact h.disk.rmdir hx
    · exact h.disk.unlink hx
  have hwithin := within_attempt (r := r) (t := t) (x := x) hx.isAbsolute h.within
  unfold Removal.attempt at hwithin ⊢
  generalize (if x.isDir then r.disk.rmdir x.path else r.disk.unlink x.path) = a at hcall hwithin ⊢
  generalize (if x.isDir then s.disk.rmdir x.path else s.disk.unlink x.path) = b at hcall ⊢
  cases hcall with
  | error f => exact h.note _
  | ok h' => exact ⟨h', by rw [h.steps], hwithin⟩

section

variable {late flush : Bool} {inner inner' : Option (Bool → Path → Removal → Removal)}
  {entries : List Listed}

/-- Both ways to go into the subdirectory `x` are there, and they go the same way. -/
def Inside (place : Place) (t : FileTree) (inner inner' : Option (Bool → Path → Removal → Removal))
    (x : Listed) : Prop :=
  ∃ f g, inner = some f ∧ inner' = some g ∧ ∀ late r s, r.Twin place t s →
    (f late x.path r).Twin place t (g late x.path s)

theorem foldl_visit (late : Bool) (hx : ∀ x ∈ entries, x.path.Confined place)
    (hinner : ∀ x ∈ entries, Inside place t inner inner' x) {kept : Option Listed}
    (hkept : ∀ x ∈ kept, x.path.Confined place) (h : r.Twin place t s) :
    ∃ r' s' kept', entries.foldl (visit late inner) (r, kept) = (r', kept') ∧
      entries.foldl (visit late inner') (s, kept) = (s', kept') ∧ r'.Twin place t s' ∧
      ∀ x ∈ kept', x.path.Confined place := by
  induction entries generalizing r s kept with
  | nil => exact ⟨r, s, kept, rfl, rfl, h, hkept⟩
  | cons x entries ih =>
    have hpath := hx x List.mem_cons_self
    have later := fun {kept : Option Listed} (hkept : ∀ x ∈ kept, x.path.Confined place)
        {r s : Removal} (h : r.Twin place t s) =>
      ih (fun y hy => hx y (List.mem_cons_of_mem _ hy))
        (fun y hy => hinner y (List.mem_cons_of_mem _ hy)) hkept h
    obtain ⟨f, g, rfl, rfl, hfg⟩ := hinner x List.mem_cons_self
    rw [List.foldl_cons, List.foldl_cons]
    simp only [visit]
    split
    · split
      · refine later ?_ (hfg true r s h)
        intro y hy
        cases hy
        exact hpath
      · exact later hkept ((hfg false r s h).attempt hpath)
    · exact later hkept (h.attempt hpath)

theorem visitAll {dir : Path} {found : Except Fault (List Listed)}
    (hx : ∀ entries, found = .ok entries → ∀ x ∈ entries, x.path.Confined place)
    (hinner : ∀ entries, found = .ok entries → ∀ x ∈ entries, Inside place t inner inner' x)
    (h : r.Twin place t s) :
    (Removal.visitAll late flush inner dir found r).Twin place t
      (Removal.visitAll late flush inner' dir found s) := by
  cases found with
  | error f => exact h.note _
  | ok entries =>
    have hnone : ∀ x ∈ (none : Option Listed), x.path.Confined place := by
      intro x hx
      cases hx
    obtain ⟨r', s', kept, hr, hs, h', hkept⟩ :=
      foldl_visit late (hx entries rfl) (hinner entries rfl) hnone h
    unfold Removal.visitAll
    simp only [hr, hs]
    cases kept with
    | none => exact h'
    | some x =>
      simp only
      split
      · exact h'.attempt (hkept x rfl)
      · exact h'

end

end Twin

/-- No more than `n` names lead on from `q`. -/
def Shallow (t : FileTree) (q : Place) (n : Nat) : Prop :=
  ∀ rest, t.get? (q ++ rest) ≠ none → rest.length ≤ n

/-- What stands in a directory is not as deep as the directory. -/
theorem Shallow.child {q : Place} {n : Nat} (h : Shallow t q n) {name : String}
    (hname : t.get? (q ++ [name]) ≠ none) : ∃ m, n = m + 1 ∧ Shallow t (q ++ [name]) m := by
  have hpos : 1 ≤ n := h [name] hname
  refine ⟨n - 1, by omega, ?_⟩
  intro rest hrest
  rw [List.append_assoc] at hrest
  have := h ([name] ++ rest) hrest
  rw [List.length_append, List.length_singleton] at this
  omega

theorem shallow_height (t : FileTree) (q : Place) : Shallow t q t.height := by
  intro rest hrest
  have := FileTree.length_le_height hrest
  rw [List.length_append] at this
  omega

/-- Whatever is listed stands in the directory, which is deeper. -/
theorem shallow_of_mem_listing {d : Disk} (hd : d.tree.LinkFree) (hwithin : d.tree.Within t)
    {dir : Path} (hdir : dir.Confined place) {entries : List Listed}
    (hl : listing d dir = .ok entries) {x : Listed} (hx : x ∈ entries) {n : Nat}
    (hn : Shallow t (Path.fold dir.names) n) :
    x.path.Confined place ∧ ∃ m, n = m + 1 ∧ Shallow t (Path.fold x.path.names) m := by
  obtain ⟨listed, name, node, hlist, hmem, rfl⟩ := mem_list_of_mem_listing hl hx
  obtain ⟨hstep, hdot, hdots, _⟩ := isEntryName_iff.1 (isEntryName_of_mem_list hlist _ hmem)
  have hthere : t.get? (Path.fold dir.names ++ [name]) = some node := by
    refine hwithin _ _ ?_
    unfold Disk.list at hlist
    split at hlist
    · cases hlist
    · cases hlist
      cases hmem
    · cases hlist
    · rename_i q hland
      obtain rfl := eq_fold_of_land_steps hd hdir.isAbsolute hland
      split at hlist
      · cases hlist
        exact FileTree.mem_entries.1 hmem
      · cases hlist
  have hfold : Path.fold (dir.child name).names = Path.fold dir.names ++ [name] := by
    rw [Path.names_child hstep.1, Path.fold_concat, Path.foldName, if_neg hdot, if_neg hdots]
  rw [hfold]
  exact ⟨hdir.child hstep.1 hdots, hn.child (by rw [hthere]; simp)⟩

/-- How a directory's subdirectories are gone into, if there is fuel for that. -/
def into : Nat → Option (Bool → Path → Removal → Removal)
  | 0 => none
  | fuel + 1 => some fun late p r => Removal.sweep fuel late true p (listing r.disk p) r

theorem sweep_eq (fuel : Nat) (late flush : Bool) (dir : Path) (found : Except Fault (List Listed))
    (r : Removal) : Removal.sweep fuel late flush dir found r =
      Removal.visitAll late flush (into fuel) dir found r := by
  cases fuel <;> rfl

/-- With fuel enough for what there is, it does not matter how much more there is. -/
theorem Twin.sweep {n m : Nat} {dir : Path} (hdir : dir.Confined place)
    (hn : Shallow t (Path.fold dir.names) n) (hm : Shallow t (Path.fold dir.names) m)
    {late flush : Bool} (h : r.Twin place t s) :
    (Removal.sweep n late flush dir (listing r.disk dir) r).Twin place t
      (Removal.sweep m late flush dir (listing s.disk dir) s) := by
  induction n generalizing m dir late flush r s with
  | zero =>
    rw [← h.disk.listing hdir, sweep_eq, sweep_eq]
    -- Where fuel is neither left nor needed, nothing is listed.
    have none : ∀ entries, listing r.disk dir = .ok entries → ∀ x ∈ entries, False := by
      intro entries hl x hx
      obtain ⟨_, k, hk, _⟩ := shallow_of_mem_listing h.disk.left h.within hdir hl hx hn
      cases hk
    exact Twin.visitAll (fun entries hl x hx => (none entries hl x hx).elim)
      (fun entries hl x hx => (none entries hl x hx).elim) h
  | succ n ih =>
    rw [← h.disk.listing hdir, sweep_eq, sweep_eq]
    refine Twin.visitAll (fun entries hl x hx =>
      (shallow_of_mem_listing h.disk.left h.within hdir hl hx hn).1) ?_ h
    intro entries hl x hx
    obtain ⟨hpath, k, hk, hshallow⟩ :=
      shallow_of_mem_listing h.disk.left h.within hdir hl hx hn
    cases hk
    obtain ⟨_, k, rfl, hshallow'⟩ := shallow_of_mem_listing h.disk.left h.within hdir hl hx hm
    exact ⟨_, _, rfl, rfl, fun late r s h' => ih hpath hshallow hshallow' h'⟩

end Removal

/-- The same is removed, with the same account. -/
theorem Disk.Twin.removeTree {place : Place} {d e : Disk} (h : d.Twin place e) {p : Path}
    (hp : p.Confined place) (self : Bool) : (d.removeTree p self).disk.Twin place
      (e.removeTree p self).disk ∧ (d.removeTree p self).steps = (e.removeTree p self).steps := by
  have start : Removal.Twin place d.tree ⟨d, []⟩ ⟨e, []⟩ := ⟨h, rfl, FileTree.Within.refl _⟩
  -- Below the path the other disk is just as deep, whatever it has elsewhere.
  have heights : Removal.Shallow d.tree (Path.fold p.names) e.tree.height := by
    intro rest hrest
    rw [h.same _ (.inr (hp.within.trans (List.prefix_append _ rest)))] at hrest
    exact Removal.shallow_height e.tree _ rest hrest
  have result : Removal.Twin place d.tree (d.removeTree p self) (e.removeTree p self) := by
    unfold Disk.removeTree
    simp only [← h.node hp.toAlong .keep]
    cases hnode : d.node .keep p with
    | error f => exact start.note _
    | ok node =>
      cases node with
      | dir =>
        have swept : Removal.Twin place d.tree
            (Removal.sweep d.tree.height false true p (Removal.listing d p) ⟨d, []⟩)
            (Removal.sweep e.tree.height false true p (Removal.listing e p) ⟨e, []⟩) :=
          Removal.Twin.sweep hp (Removal.shallow_height d.tree _) heights start
        simp only
        split
        · exact swept.attempt hp
        · exact swept
      | file bytes =>
        simp only
        split
        · exact start.attempt hp
        · exact start
      | link target => exact absurd (node_of_linkFree h.left hp.isAbsolute hnode) (h.left _ _)
  exact ⟨result.disk, result.steps⟩

end Datapack
