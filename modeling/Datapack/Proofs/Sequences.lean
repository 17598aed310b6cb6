import Datapack.Disk.Removal
import Datapack.OutputStack
import Datapack.Skeleton
import Datapack.Proofs.Calls

/-
  Datapack.Proofs.Sequences — operations that are made of several calls.

  Making a directory with its ancestors, providing an output file, removing a tree and
  laying out a datapack call the disk again and again, and look at it in between. What
  each single call keeps, the whole keeps, however far it gets: one such rule for each,
  with the paths that its calls can have.
  - `makeDirs_keeps`: `mkdir` of the path and the paths above it.
  - `provide_keeps`: `mkdir` of the paths above, and the file itself.
  - `removeTree_keeps`: removals of the path and of what lies below it. It is a case of
    `removeTree_keeps_steps`, which is about the account of a removal as well: what its
    attempts and its notes of failures keep (`KeptBySteps`).
  - `layOut_keeps`: the steps of the plan.
-/

namespace Datapack

namespace Path

/-- The paths above start at the root as well, and have a first stretch of the names. -/
theorem mem_ancestors {p q : Path} (hp : p.isAbsolute = true) (h : q ∈ p.ancestors) :
    q.isAbsolute = true ∧ q.names <+: p.names := by
  have upTo : ∀ (n : Nat) (p : Path), p.isAbsolute = true → q ∈ ancestors.upTo n p →
      q.isAbsolute = true ∧ q.names <+: p.names := by
    intro n
    induction n with
    | zero => intro p _ h; cases h
    | succ n ih =>
      intro p hp h
      rw [ancestors.upTo] at h
      split at h
      · cases h
      · rcases List.mem_cons.1 h with rfl | h
        · exact ⟨hp, List.prefix_refl _⟩
        · split at h
          · cases h
          · rename_i above ha
            obtain ⟨habs, hpre⟩ := ih above (isAbsolute_parent? hp ha) h
            exact ⟨habs, hpre.trans (names_parent? ha)⟩
  exact upTo _ p hp h

end Path

namespace Disk

variable {P : Disk → Prop}

/-! ## Making -/

theorem makeDirsUp_keeps {ps : List Path}
    (h : ∀ d d' q, q ∈ ps → P d → mkdir d q = .ok d' → P d') {d : Disk} (hd : P d) :
    P (makeDirsUp ps d).1 := by
  induction ps generalizing d with
  | nil => exact hd
  | cons p above ih =>
    have hp : ∀ d d', P d → mkdir d p = .ok d' → P d' := fun d d' => h d d' p List.mem_cons_self
    have habove : ∀ {d}, P d → P (makeDirsUp above d).1 :=
      ih fun d d' q hq => h d d' q (List.mem_cons_of_mem _ hq)
    unfold makeDirsUp
    split
    · exact hp _ _ hd ‹_›
    · have hup := habove hd
      split
      · rename_i he; rw [he] at hup; exact hup
      · rename_i he
        rw [he] at hup
        split
        · exact hp _ _ hup ‹_›
        · exact hup
    · exact hd

theorem makeDirs_keeps {p : Path} (hp : p.isAbsolute = true)
    (h : ∀ d d' q, q.isAbsolute = true → q.names <+: p.names → P d → mkdir d q = .ok d' → P d')
    {d : Disk} (hd : P d) : P (d.makeDirs p).1 := by
  refine makeDirsUp_keeps (fun d d' q hq => ?_) hd
  obtain ⟨habs, hpre⟩ := Path.mem_ancestors hp hq
  exact h d d' q habs hpre

/-- The directories above a path start at the root and have a first stretch of its names. -/
theorem makeParents_keeps {p : Path} (hp : p.isAbsolute = true)
    (h : ∀ d d' q, q.isAbsolute = true → q.names <+: p.names → P d → mkdir d q = .ok d' → P d')
    {d : Disk} (hd : P d) : P (OutputStack.makeParents d p).1 := by
  unfold OutputStack.makeParents
  split
  · rename_i dir hpar
    refine makeDirs_keeps (Path.isAbsolute_parent? hp hpar) ?_ hd
    intro d d' q hq hpre
    exact h d d' q hq (hpre.trans (Path.names_parent? hpar))
  · exact hd

/-- Directories are made first, if anything is, and the file last. -/
theorem provide_cases (d : Disk) (p : Path) :
    (d.isFile p = true ∧ OutputStack.provide d p = (d, .ok ())) ∨
    (∃ f, OutputStack.provide d p = ((OutputStack.makeParents d p).1, .error f)) ∨
    ∃ d' place, (OutputStack.makeParents d p).1.ensureFile p = .ok (d', place) ∧
      OutputStack.provide d p = (d', .ok ()) := by
  unfold OutputStack.provide
  by_cases hf : d.isFile p = true
  · left
    exact ⟨hf, if_pos hf⟩
  right
  rw [if_neg hf]
  obtain ⟨d₁, told⟩ := OutputStack.makeParents d p
  cases told with
  | error f => exact .inl ⟨f, rfl⟩
  | ok u =>
    cases hfile : d₁.ensureFile p with
    | error f => exact .inl ⟨f, by simp only [hfile]⟩
    | ok r => exact .inr ⟨r.1, r.2, rfl, by simp only [hfile]⟩

theorem provide_keeps {p : Path} (hp : p.isAbsolute = true)
    (hdir : ∀ d d' q, q.isAbsolute = true → q.names <+: p.names → P d → mkdir d q = .ok d' → P d')
    (hfile : ∀ d d' place, P d → ensureFile d p = .ok (d', place) → P d')
    {d : Disk} (hd : P d) : P (OutputStack.provide d p).1 := by
  have made : P (OutputStack.makeParents d p).1 := makeParents_keeps hp hdir hd
  rcases provide_cases d p with ⟨_, h⟩ | ⟨f, h⟩ | ⟨d', place, he, h⟩
  · rw [h]; exact hd
  · rw [h]; exact made
  · rw [h]; exact hfile _ d' place made he

/-! ## Removing -/

def Removes (d d' : Disk) (q : Path) : Prop := d.rmdir q = .ok d' ∨ d.unlink q = .ok d'

theorem removes_of_attempt {r : Removal} {e : Listed} :
    Removes r.disk (r.attempt e).disk e.path ∨ (r.attempt e).disk = r.disk := by
  unfold Removal.attempt
  split
  · rename_i he
    left
    split at he
    · exact .inl he
    · exact .inr he
  · exact .inr rfl

/-- What every step of a removal keeps whose path is one of `Q`. -/
structure KeptBySteps (R : Removal → Prop) (Q : Path → Prop) : Prop where
  attempt : ∀ r e, Q e.path → R r → R (r.attempt e)
  unreadable : ∀ r q f, Q q → R r → R (r.unreadable q f)

/-- What single calls keep of the disk, steps keep. -/
theorem keptBySteps_disk {Q : Path → Prop} (h : ∀ d d' q, Q q → P d → Removes d d' q → P d') :
    KeptBySteps (fun r => P r.disk) Q where
  attempt := by
    intro r e hq hr
    rcases removes_of_attempt (r := r) (e := e) with hremoves | hsame
    · exact h _ _ _ hq hr hremoves
    · rw [hsame]
      exact hr
  unreadable := fun _ _ _ _ hr => hr

theorem isEntryName_of_mem_list {d : Disk} {dir : Path} {entries : List (String × Node)}
    (h : d.list dir = .ok entries) : ∀ e ∈ entries, isEntryName e.1 = true := by
  unfold list at h
  split at h
  · cases h
  · cases h; simp
  · cases h
  · split at h
    · cases h
      rintro ⟨name, node⟩ he
      exact FileTree.isEntryName_of_get? (by rw [FileTree.mem_entries.1 he]; simp) name (by simp)
    · cases h

/-- What is listed is what the directory holds. -/
theorem mem_list_of_mem_listing {d : Disk} {dir : Path} {listed : List Listed}
    (h : Removal.listing d dir = .ok listed) {e : Listed} (he : e ∈ listed) :
    ∃ entries name node, d.list dir = .ok entries ∧ (name, node) ∈ entries ∧
      e = ⟨dir.child name, node == .dir⟩ := by
  unfold Removal.listing at h
  split at h
  · cases h
  · rename_i entries hl
    cases h
    have hm : e ∈ entries.map fun entry => (⟨dir.child entry.1, entry.2 == .dir⟩ : Listed) := by
      rcases List.mem_append.1 he with he | he
      · exact (List.mem_filter.1 he).1
      · exact (List.mem_filter.1 he).1
    obtain ⟨⟨name, node⟩, hentry, rfl⟩ := List.mem_map.1 hm
    exact ⟨entries, name, node, hl, hentry, rfl⟩

/-- It has a path one name longer. -/
theorem path_of_mem_listing {d : Disk} {dir : Path} {listed : List Listed}
    (h : Removal.listing d dir = .ok listed) :
    ∀ e ∈ listed, ∃ name, isEntryName name = true ∧ e.path = dir.child name := by
  intro e he
  obtain ⟨entries, name, node, hl, hentry, rfl⟩ := mem_list_of_mem_listing h he
  exact ⟨name, isEntryName_of_mem_list hl (name, node) hentry, rfl⟩

variable {R : Removal → Prop} {Q : Path → Prop}

section

variable {late : Bool} {inner : Option (Bool → Path → Removal → Removal)}

/-- What holds between two entries of a list: so far all is kept, and an entry that was
kept back is one of the list. -/
def KeptBack (R : Removal → Prop) (Q : Path → Prop) (state : Removal × Option Listed) : Prop :=
  R state.1 ∧ ∀ e ∈ state.2, Q e.path

theorem visit_keeps (h : KeptBySteps R Q)
    (hinner : ∀ f ∈ inner, ∀ late q r, Q q → R r → R (f late q r))
    {state : Removal × Option Listed} (hs : KeptBack R Q state) {e : Listed} (he : Q e.path) :
    KeptBack R Q (Removal.visit late inner state e) := by
  obtain ⟨r, kept⟩ := state
  obtain ⟨hr, hkept⟩ := hs
  simp only [Removal.visit]
  split
  · cases inner with
    | none => exact ⟨hr, hkept⟩
    | some f =>
      have hf : ∀ late, R (f late e.path r) := fun late => hinner f rfl late e.path r he hr
      simp only
      split
      · refine ⟨hf true, fun k hk => ?_⟩
        cases hk
        exact he
      · exact ⟨h.attempt _ e he (hf false), hkept⟩
  · exact ⟨h.attempt r e he hr, hkept⟩

theorem foldl_visit_keeps (h : KeptBySteps R Q)
    (hinner : ∀ f ∈ inner, ∀ late q r, Q q → R r → R (f late q r))
    {entries : List Listed} (hq : ∀ e ∈ entries, Q e.path)
    {state : Removal × Option Listed} (hs : KeptBack R Q state) :
    KeptBack R Q (entries.foldl (Removal.visit late inner) state) := by
  induction entries generalizing state with
  | nil => exact hs
  | cons e entries ih =>
    exact ih (fun k hk => hq k (List.mem_cons_of_mem _ hk))
      (visit_keeps h hinner hs (hq e List.mem_cons_self))

/-- What the steps keep, and the removals inside subdirectories keep. -/
theorem visitAll_keeps (h : KeptBySteps R Q)
    (hinner : ∀ f ∈ inner, ∀ late q r, Q q → R r → R (f late q r))
    {flush : Bool} {dir : Path} {found : Except Fault (List Listed)} {r : Removal}
    (hdir : ∀ f, found = .error f → R (r.unreadable dir f))
    (hq : ∀ entries, found = .ok entries → ∀ e ∈ entries, Q e.path) (hr : R r) :
    R (Removal.visitAll late flush inner dir found r) := by
  cases found with
  | error f => exact hdir f rfl
  | ok entries =>
    have start : KeptBack R Q (r, none) := ⟨hr, by intro e he; cases he⟩
    have swept : KeptBack R Q (entries.foldl (Removal.visit late inner) (r, none)) :=
      foldl_visit_keeps h hinner (hq entries rfl) start
    unfold Removal.visitAll
    simp only
    split
    · rename_i r e he
      rw [he] at swept
      split
      · exact h.attempt r e (swept.2 e rfl) swept.1
      · exact swept.1
    · rename_i r he
      rw [he] at swept
      exact swept.1

end

/-- Whoever comes to a directory by one of the paths comes to what is in it by others. -/
theorem listed_of_child (hchild : ∀ q name, Q q → isEntryName name = true → Q (q.child name))
    {d : Disk} {dir : Path} (hq : Q dir) {entries : List Listed}
    (hl : Removal.listing d dir = .ok entries) : ∀ e ∈ entries, Q e.path := by
  intro e he
  obtain ⟨name, hname, hpath⟩ := path_of_mem_listing hl e he
  rw [hpath]
  exact hchild dir name hq hname

theorem sweep_keeps (hchild : ∀ q name, Q q → isEntryName name = true → Q (q.child name))
    (h : KeptBySteps R Q) (fuel : Nat) {late flush : Bool}
    {dir : Path} {d₀ : Disk} {r : Removal} (hq : Q dir) (hr : R r) :
    R (Removal.sweep fuel late flush dir (Removal.listing d₀ dir) r) := by
  induction fuel generalizing late flush dir d₀ r with
  | zero =>
    exact visitAll_keeps h (by intro f hf; cases hf) (fun f _ => h.unreadable r dir f hq hr)
      (fun entries => listed_of_child hchild hq) hr
  | succ fuel ih =>
    refine visitAll_keeps h ?_ (fun f _ => h.unreadable r dir f hq hr)
      (fun entries => listed_of_child hchild hq) hr
    intro f hf late q r hq hr
    cases hf
    exact ih hq hr

/-- One look at the path, and then a sweep, and an attempt before or after it. -/
theorem removeTree_keeps_steps
    (hchild : ∀ q name, Q q → isEntryName name = true → Q (q.child name))
    (h : KeptBySteps R Q) {p : Path} (hq : Q p) (self : Bool) {d : Disk} (hd : R ⟨d, []⟩) :
    R (d.removeTree p self) := by
  have swept : ∀ {late flush : Bool} {r : Removal}, R r →
      R (Removal.sweep d.tree.height late flush p (Removal.listing d p) r) :=
    fun hr => sweep_keeps hchild h _ hq hr
  unfold removeTree
  simp only
  split
  · exact h.unreadable _ p _ hq hd
  · split
    · exact h.attempt _ ⟨p, true⟩ hq (swept hd)
    · exact swept hd
  · split
    · exact h.attempt _ ⟨p, false⟩ hq hd
    · exact hd
  · split
    · exact h.unreadable _ p _ hq hd
    · apply swept
      split
      · exact h.attempt _ ⟨p, false⟩ hq hd
      · exact hd
    · split
      · exact h.attempt _ ⟨p, false⟩ hq hd
      · exact hd

theorem removeTree_keeps (hchild : ∀ q name, Q q → isEntryName name = true → Q (q.child name))
    (h : ∀ d d' q, Q q → P d → Removes d d' q → P d') {p : Path} (hq : Q p) (self : Bool)
    {d : Disk} (hd : P d) : P (d.removeTree p self).disk :=
  removeTree_keeps_steps hchild (keptBySteps_disk h) hq self hd

end Disk

/-! ## Laying out -/

namespace Skeleton

theorem performAll_keeps {P : Disk → Prop} {steps : List LayoutStep}
    (h : ∀ step ∈ steps, ∀ d, P d → P (perform d step).1) {d : Disk} (hd : P d) :
    P (performAll steps d).disk := by
  induction steps generalizing d with
  | nil => exact hd
  | cons step steps ih =>
    have hstep := h step List.mem_cons_self d hd
    unfold performAll
    split
    · rename_i he; rw [he] at hstep; exact hstep
    · rename_i he
      rw [he] at hstep
      exact ih (fun s hs => h s (List.mem_cons_of_mem _ hs)) hstep

theorem layOut_keeps {P : Disk → Prop} {root : Path} {options : SkeletonOptions}
    (h : ∀ step ∈ plan root options, ∀ d, P d → P (perform d step).1) {d : Disk} (hd : P d) :
    P (layOut root options d).disk := by
  unfold layOut
  exact performAll_keeps h hd

end Skeleton

end Datapack
