import Datapack.Proofs.Paving

/-
  Datapack.Proofs.Removing — what a removal has taken away when nothing failed.

  A call that removes `p` leaves nothing that `p` leads to, also where links stand along
  it, and no later removal brings anything back (`Gone`, `gone_of_removes`, `Gone.kept`).
  A failure is never forgotten (`grows`), so if a removal ends without any, each of its
  attempts has succeeded: after the removal of a tree its path leads to nothing
  (`gone_of_removeTree`).

  Emptying a directory is the same for each entry that was listed
  (`foldl_visit_each`). That needs the directory to stay where it is while its contents
  go: a path through it leads to its entries (`lands_on_child`), and when it has none such
  a path leads nowhere, so none of the calls is on the directory itself (`Holds.kept`). A
  path with a link along it may well lead back to the directory; hence `emptied_of_removeTree`
  is about paths that are their own canonical form.
-/

namespace Datapack

namespace Disk

variable {d d' : Disk} {p q : Path}

/-! ## One call -/

/-- Nothing is there under the path, not even a link. -/
def Gone (d : Disk) (p : Path) : Prop := d.node .keep p = .error .notFound

theorem gone_iff (hp : p.IsCanonical) : d.Gone p ↔ p.hasNul = false ∧
    p.text.utf8ByteSize ≤ maxPathBytes ∧ d.tree.Misses .keep maxLinks [] p.names := by
  unfold Gone node FileTree.Misses
  rw [steps_of_isCanonical hp]
  constructor
  · intro h
    have hland : d.land .keep p p.names = .error .notFound ∨
        ∃ dir name, d.land .keep p p.names = .ok (.vacant dir name) := by
      split at h
      · rename_i place hl
        have hfits : d.tree.get? place ≠ none := land_names_fitsIn hp.isAbsolute hl
        split at h
        · cases h
        · rename_i hnone
          exact absurd hnone hfits
      · rename_i dir name hl
        exact .inr ⟨dir, name, hl⟩
      · cases h
      · rename_i hl
        cases h
        exact .inl hl
    rcases hland with hl | ⟨dir, name, hl⟩
    · rw [land_of_isAbsolute hp.isAbsolute] at hl
      split at hl
      · cases hl
      · rename_i hnul
        split at hl
        · cases hl
        · rename_i htext
          exact ⟨by simpa using hnul, Nat.le_of_not_lt htext, .inl hl⟩
    · obtain ⟨hnul, htext, hw⟩ := land_ok hp.isAbsolute hl
      exact ⟨hnul, htext, .inr ⟨dir, name, hw⟩⟩
  · rintro ⟨hnul, htext, hm⟩
    rw [land_of_isAbsolute hp.isAbsolute, if_neg (by simp [hnul]), if_neg (Nat.not_lt.2 htext)]
    rcases hm with hw | ⟨dir, name, hw⟩
    · rw [hw]
    · rw [hw]

/-- A removal takes one place out of the tree, and its path had led there. -/
theorem Removes.loses (hq : q.isAbsolute = true) (h : Removes d d' q) :
    ∃ place, d.land .keep q q.names = .ok (.node place) ∧ d.tree.Loses d'.tree place := by
  rcases h with h | h
  · obtain ⟨place, hl, _, _, hset⟩ := rmdir_lands hq h
    exact ⟨place, hl, hset⟩
  · obtain ⟨place, hl, _, _, hset⟩ := unlink_lands hq h
    exact ⟨place, hl, hset⟩

theorem walk_of_root_loses {place : Place} (h : d.tree.Loses d'.tree place) (names : List String) :
    d'.tree.walk .keep maxLinks [] names = d.tree.walk .keep maxLinks [] names ∨
      d'.tree.Misses .keep maxLinks [] names := by
  have hroot : d'.tree.get? [] = d.tree.get? [] := by
    rw [FileTree.get?_root, FileTree.get?_root]
  exact FileTree.walk_of_loses h maxLinks hroot names

theorem gone_of_removes (hp : p.IsCanonical) (h : Removes d d' p) : d'.Gone p := by
  obtain ⟨place, hl, hloses⟩ := h.loses hp.isAbsolute
  obtain ⟨hnul, htext, hw⟩ := land_ok hp.isAbsolute hl
  refine (gone_iff hp).2 ⟨hnul, htext, ?_⟩
  rcases walk_of_root_loses hloses p.names with hsame | hmiss
  · -- A walk that still ends there would end on a node that is not there.
    have hstill : d'.land .keep p p.names = .ok (.node place) := by
      rw [land_of_isAbsolute hp.isAbsolute, if_neg (by simp [hnul]), if_neg (Nat.not_lt.2 htext),
        hsame, hw]
    have hfits : d'.tree.get? place ≠ none := land_names_fitsIn hp.isAbsolute hstill
    rw [hloses place, if_pos rfl] at hfits
    exact absurd rfl hfits
  · exact hmiss

theorem Gone.kept (hp : p.IsCanonical) (hq : q.isAbsolute = true) (hg : d.Gone p)
    (h : Removes d d' q) : d'.Gone p := by
  obtain ⟨hnul, htext, hm⟩ := (gone_iff hp).1 hg
  obtain ⟨place, _, hloses⟩ := h.loses hq
  refine (gone_iff hp).2 ⟨hnul, htext, ?_⟩
  rcases walk_of_root_loses hloses p.names with hsame | hmiss
  · unfold FileTree.Misses
    rw [hsame]
    exact hm
  · exact hmiss

end Disk

/-! ## Failures -/

namespace Removal

open Disk

variable {r : Removal} {e : Listed}

theorem failures_note (r : Removal) (p : Path) (reason : String) :
    (r.note (.failed p reason)).failures = r.failures ++ [(p, reason)] := by
  simp [note, failures]

theorem failures_unreadable (r : Removal) (p : Path) (f : Fault) :
    (r.unreadable p f).failures ≠ [] := by
  simp [unreadable, failures_note]

/-- An attempt notes its failure, or it has removed its path. -/
theorem attempt_cases (r : Removal) (e : Listed) :
    (∃ reason, r.attempt e = r.note (.failed e.path reason)) ∨
    (r.attempt e).failures = r.failures ∧ Removes r.disk (r.attempt e).disk e.path := by
  unfold attempt
  cases hd : e.isDir with
  | true =>
    cases hm : r.disk.rmdir e.path with
    | error f => exact .inl ⟨_, rfl⟩
    | ok d => exact .inr ⟨by simp [failures], .inl (by simp [hm])⟩
  | false =>
    cases hm : r.disk.unlink e.path with
    | error f => exact .inl ⟨_, rfl⟩
    | ok d => exact .inr ⟨by simp [failures], .inr (by simp [hm])⟩

/-- What has failed once is told in the end. -/
theorem grows (Q : Path → Prop) : KeptBySteps (fun r => r.failures ≠ []) Q where
  attempt := by
    intro r e _ hr
    rcases r.attempt_cases e with ⟨reason, hnoted⟩ | ⟨hsame, _⟩
    · simp [hnoted, failures_note]
    · rw [hsame]
      exact hr
  unreadable := fun r q f _ _ => r.failures_unreadable q f

/-- Whatever steps keep of the disk, they keep until something fails. -/
theorem unlessFailed {P : Disk → Prop} {Q : Path → Prop}
    (h : ∀ d d' q, Q q → P d → Removes d d' q → P d') :
    KeptBySteps (fun r => r.failures ≠ [] ∨ P r.disk) Q where
  attempt := by
    intro r e hq hr
    rcases hr with hfails | hr
    · exact .inl ((grows Q).attempt r e hq hfails)
    · exact .inr ((keptBySteps_disk h).attempt r e hq hr)
  unreadable := fun r q f _ _ => .inl (r.failures_unreadable q f)

end Removal

namespace Disk

open Removal

variable {d d' : Disk} {p q : Path}

/-! ## A directory and all that is in it -/

theorem isAbsolute_child_of_isEntryName {name : String} (hq : q.isAbsolute = true)
    (hname : isEntryName name = true) : (q.child name).isAbsolute = true := by
  rw [Path.isAbsolute_child (isEntryName_iff.1 hname).1.1, hq]

def GoneUnlessFailed (p : Path) (r : Removal) : Prop := r.failures ≠ [] ∨ r.disk.Gone p

theorem goneUnlessFailed_kept (hp : p.IsCanonical) :
    KeptBySteps (GoneUnlessFailed p) (fun q => q.isAbsolute = true) :=
  unlessFailed (P := fun d => d.Gone p) fun _ _ _ hq hg h => hg.kept hp hq h

theorem goneUnlessFailed_attempt (hp : p.IsCanonical) (r : Removal) (isDir : Bool) :
    GoneUnlessFailed p (r.attempt ⟨p, isDir⟩) := by
  rcases r.attempt_cases ⟨p, isDir⟩ with ⟨reason, hnoted⟩ | ⟨_, hremoves⟩
  · exact .inl (by simp [hnoted, failures_note])
  · exact .inr (gone_of_removes hp hremoves)

theorem goneUnlessFailed_sweep (hp : p.IsCanonical) (fuel : Nat) {late flush : Bool} {d₀ : Disk}
    {r : Removal} (hr : GoneUnlessFailed p r) :
    GoneUnlessFailed p (sweep fuel late flush p (listing d₀ p) r) :=
  sweep_keeps (Q := fun q => q.isAbsolute = true)
    (fun _ _ hq hname => isAbsolute_child_of_isEntryName hq hname)
    (goneUnlessFailed_kept hp) fuel hp.isAbsolute hr

/-- A path whose removal went without failure leads to nothing. -/
theorem gone_of_removeTree (hp : p.IsCanonical) (hs : (d.removeTree p true).failures = []) :
    (d.removeTree p true).disk.Gone p := by
  have unread : ∀ (r : Removal) f, GoneUnlessFailed p (r.unreadable p f) :=
    fun r f => .inl (r.failures_unreadable p f)
  have taken := goneUnlessFailed_attempt hp
  have ended : GoneUnlessFailed p (d.removeTree p true) := by
    unfold removeTree
    simp only [if_true]
    split
    · exact unread _ _
    · exact taken _ true
    · exact taken _ false
    · split
      · exact unread _ _
      · exact goneUnlessFailed_sweep hp _ (taken _ false)
      · exact taken _ false
  exact ended.resolve_left fun h => h hs

/-! ## What is in a directory -/

/-- Where the entries of a list are taken one by one, what an attempt brings about for its
entry holds for each of them in the end, if every step keeps it. -/
theorem foldl_visit_each {Q : Path → Prop} {R : Removal → Prop} {G : Listed → Removal → Prop}
    {inner : Bool → Path → Removal → Removal}
    (hinner : ∀ {S : Removal → Prop}, KeptBySteps S Q → ∀ late q r, Q q → S r → S (inner late q r))
    (hR : KeptBySteps R Q) (hG : ∀ e, Q e.path → KeptBySteps (G e) Q)
    (htaken : ∀ e r, Q e.path → R r → G e (r.attempt e)) {entries : List Listed}
    (hq : ∀ e ∈ entries, Q e.path) {state : Removal × Option Listed} (hs : KeptBack R Q state) :
    R (entries.foldl (Removal.visit false (some inner)) state).1 ∧
      ∀ e ∈ entries, G e (entries.foldl (Removal.visit false (some inner)) state).1 := by
  have keeps : ∀ {S : Removal → Prop}, KeptBySteps S Q → ∀ f ∈ some inner, ∀ late q r, Q q → S r →
      S (f late q r) := by
    intro S hS f hf
    cases hf
    exact hinner hS
  refine ⟨(foldl_visit_keeps hR (keeps hR) hq hs).1, ?_⟩
  induction entries generalizing state with
  | nil =>
    intro e he
    cases he
  | cons e entries ih =>
    have he : Q e.path := hq e List.mem_cons_self
    have hrest : ∀ k ∈ entries, Q k.path := fun k hk => hq k (List.mem_cons_of_mem _ hk)
    have hnext : KeptBack R Q (Removal.visit false (some inner) state e) :=
      visit_keeps hR (keeps hR) hs he
    intro k hk
    rcases List.mem_cons.1 hk with rfl | hk
    · have hdone : G k (Removal.visit false (some inner) state k).1 := by
        obtain ⟨r, kept⟩ := state
        simp only [Removal.visit, Bool.false_and, Bool.false_eq_true, if_false]
        split
        · exact htaken k _ he (hinner hR false k.path r he hs.1)
        · exact htaken k _ he hs.1
      exact (foldl_visit_keeps (hG k he) (keeps (hG k he)) hrest ⟨hdone, hnext.2⟩).1
    · exact ih hrest hnext k hk

/-- The directory at `place` is there, and holds nothing that the tree `t` has not. -/
structure Holds (place : Place) (t : FileTree) (d : Disk) : Prop where
  isDir : d.tree.get? place = some .dir
  within : d.tree.Within t

/-- Paths that lead through the place to what is in it. -/
def Inward (place : Place) (q : Path) : Prop :=
  q.isAbsolute = true ∧ ∃ name rest, isEntryName name = true ∧ q.names = place ++ name :: rest

theorem Inward.child {place : Place} {name : String} (hq : Inward place q)
    (hname : isEntryName name = true) : Inward place (q.child name) := by
  obtain ⟨habs, first, rest, hfirst, hnames⟩ := hq
  refine ⟨isAbsolute_child_of_isEntryName habs hname, first, rest ++ [name], hfirst, ?_⟩
  rw [Path.names_child (isEntryName_iff.1 hname).1.1, hnames, List.append_assoc]
  rfl

/-- A walk to an entry of a directory ends on it, if there is no more to its names. -/
theorem lands_on_child {place place' : Place} (hc : Path.Clean place)
    (hdir : d.tree.get? place = some .dir) {name : String} (hname : isEntryName name = true)
    (hq : q.isAbsolute = true) (hnames : q.names = place ++ [name])
    (hl : d.land .keep q q.names = .ok (.node place')) : place' = place ++ [name] := by
  have hw := (land_ok hq hl).2.2
  rw [hnames] at hw
  unfold FileTree.walk at hw
  rw [FileTree.advance_inward .keep hc hdir hname] at hw
  cases hn : d.tree.get? (place ++ [name]) with
  | none => simp [hn] at hw
  | some node =>
    cases node with
    | link target => simpa [hn] using hw.symm
    | dir | file => simpa [hn, FileTree.advance_nil] using hw.symm

/-- A call on what is in the directory takes away neither the directory nor anything that
was not there. -/
theorem Holds.kept {place : Place} {t : FileTree} (hc : Path.Clean place) (hq : Inward place q)
    (hd : d.Holds place t) (h : Removes d d' q) : d'.Holds place t := by
  obtain ⟨habs, name, rest, hname, hnames⟩ := hq
  have stays : ∀ {place'}, d.land .keep q q.names = .ok (.node place') →
      (d.tree.get? place' = some .dir → d.tree.names place' = []) → place' ≠ place := by
    rintro place' hl hempty rfl
    -- In an empty directory the walk would not have come to a node.
    have hnone : d.tree.get? (place' ++ [name]) = none := by
      have hnot : name ∉ d.tree.names place' := by
        rw [hempty hd.isDir]
        exact List.not_mem_nil
      rw [FileTree.mem_names] at hnot
      simpa using hnot
    have hw := (land_ok habs hl).2.2
    rw [hnames] at hw
    unfold FileTree.walk at hw
    rw [FileTree.advance_inward .keep hc hd.isDir hname, hnone] at hw
    by_cases hr : rest = []
    · simp [hr] at hw
    · simp [hr] at hw
  obtain ⟨place', hne, hloses⟩ : ∃ place', place' ≠ place ∧ d.tree.Loses d'.tree place' := by
    rcases h with h | h
    · obtain ⟨place', hl, _, hempty, hset⟩ := rmdir_lands habs h
      exact ⟨place', stays hl (fun _ => hempty), hset⟩
    · obtain ⟨place', hl, _, hnot, hset⟩ := unlink_lands habs h
      refine ⟨place', stays hl (fun hdir => ?_), hset⟩
      simp [FileTree.isDir, hdir] at hnot
  refine ⟨?_, hloses.within.trans hd.within⟩
  rw [hloses place, if_neg (Ne.symm hne)]
  exact hd.isDir

/-- No entry is kept back but on a late walk. -/
theorem kept_of_not_late (inner : Option (Bool → Path → Removal → Removal)) (entries : List Listed)
    (state : Removal × Option Listed) :
    (entries.foldl (Removal.visit false inner) state).2 = state.2 := by
  induction entries generalizing state with
  | nil => rfl
  | cons e entries ih =>
    rw [List.foldl_cons, ih]
    obtain ⟨r, kept⟩ := state
    cases inner with
    | none =>
      simp only [Removal.visit]
      split <;> rfl
    | some inner =>
      simp only [Removal.visit, Bool.false_and, Bool.false_eq_true, if_false]
      split <;> rfl

theorem visitAll_of_not_late (flush : Bool) (inner : Option (Bool → Path → Removal → Removal))
    (dir : Path) (entries : List Listed) (r : Removal) :
    Removal.visitAll false flush inner dir (.ok entries) r =
      (entries.foldl (Removal.visit false inner) (r, none)).1 := by
  have hkept := kept_of_not_late inner entries (r, none)
  simp only [Removal.visitAll]
  split
  · rename_i he
    rw [he] at hkept
    cases hkept
  · rename_i he
    rw [he]

theorem list_of_land {place : Place} (hland : d.land .follow p p.steps = .ok (.node place))
    (hdir : d.tree.get? place = some .dir) : d.list p = .ok (d.tree.entries place) := by
  unfold list
  simp only [hland, FileTree.isDir, hdir, beq_self_eq_true, if_true]

theorem list_of_isDir (hp : p.IsCanonical) (htext : p.text.utf8ByteSize ≤ maxPathBytes)
    (hdir : d.tree.get? p.names = some .dir) : d.list p = .ok (d.tree.entries p.names) := by
  have hnul := hasNul_of_get? hp (by rw [hdir]; simp)
  exact list_of_land (land_of_isDir hp.isAbsolute hnul htext hp.clean hdir .follow (steps_cases p)) hdir

/-- A directory that stands at the names of its path is listed in full. -/
theorem mem_listing {entries : List Listed} (hp : p.IsCanonical)
    (htext : p.text.utf8ByteSize ≤ maxPathBytes) (hdir : d.tree.get? p.names = some .dir)
    (hl : listing d p = .ok entries) {name : String} {node : Node}
    (hn : d.tree.get? (p.names ++ [name]) = some node) :
    (⟨p.child name, node == .dir⟩ : Listed) ∈ entries := by
  unfold listing at hl
  rw [list_of_isDir hp htext hdir] at hl
  cases hl
  have hmem : (⟨p.child name, node == .dir⟩ : Listed) ∈ (d.tree.entries p.names).map
      fun entry => (⟨p.child entry.1, entry.2 == .dir⟩ : Listed) :=
    List.mem_map.2 ⟨(name, node), FileTree.mem_entries.2 hn, rfl⟩
  rw [List.mem_append, List.mem_filter, List.mem_filter]
  cases hisDir : (node == .dir) with
  | true => exact .inr ⟨hisDir ▸ hmem, rfl⟩
  | false => exact .inl ⟨hisDir ▸ hmem, rfl⟩

def TakenUnlessFailed (p : Path) (e : Listed) (r : Removal) : Prop :=
  r.failures ≠ [] ∨ ∀ name, isEntryName name = true → e.path = p.child name →
    r.disk.tree.get? (p.names ++ [name]) = none

theorem takenUnlessFailed_kept (p : Path) (e : Listed) :
    KeptBySteps (TakenUnlessFailed p e) (Inward p.names) := by
  refine unlessFailed (P := fun d => ∀ name, isEntryName name = true → e.path = p.child name →
    d.tree.get? (p.names ++ [name]) = none) ?_
  intro d d' q hq hd h name hname he
  obtain ⟨place, _, hloses⟩ := h.loses hq.1
  rw [hloses (p.names ++ [name])]
  split
  · rfl
  · exact hd name hname he

theorem takenUnlessFailed_attempt (hp : p.IsCanonical) {e : Listed} {r : Removal}
    (he : Inward p.names e.path) (hr : r.disk.tree.get? p.names = some .dir) :
    TakenUnlessFailed p e (r.attempt e) := by
  rcases r.attempt_cases e with ⟨reason, hnoted⟩ | ⟨_, hremoves⟩
  · exact .inl (by simp [hnoted, failures_note])
  · right
    intro name hname hpath
    obtain ⟨place, hl, hloses⟩ := hremoves.loses he.1
    have hnames : e.path.names = p.names ++ [name] := by
      rw [hpath, Path.names_child (isEntryName_iff.1 hname).1.1]
    rw [lands_on_child hp.clean hr hname he.1 hnames hl] at hloses
    rw [hloses (p.names ++ [name]), if_pos rfl]

theorem inward_of_mem_listing {entries : List Listed} (hp : p.IsCanonical)
    (hl : listing d p = .ok entries) : ∀ e ∈ entries, Inward p.names e.path := by
  intro e he
  obtain ⟨name, hname, hpath⟩ := path_of_mem_listing hl e he
  refine ⟨?_, name, [], hname, ?_⟩
  · rw [hpath, isAbsolute_child_of_isEntryName hp.isAbsolute hname]
  · rw [hpath, Path.names_child (isEntryName_iff.1 hname).1.1]

/-- A directory that stands at the names of its path, and was swept without failure, is
still there, and nothing is in it. -/
theorem emptied_of_sweep (hp : p.IsCanonical)
    (htext : p.text.utf8ByteSize ≤ maxPathBytes) (hdir : d.tree.get? p.names = some .dir)
    {fuel : Nat} {flush : Bool}
    (hs : (sweep (fuel + 1) false flush p (listing d p) ⟨d, []⟩).failures = []) :
    let d' := (sweep (fuel + 1) false flush p (listing d p) ⟨d, []⟩).disk
    d'.tree.get? p.names = some .dir ∧ d'.tree.names p.names = [] := by
  unfold sweep at hs ⊢
  cases hl : listing d p with
  | error f =>
    rw [hl] at hs
    exact absurd hs (failures_unreadable _ p f)
  | ok entries =>
    rw [hl, visitAll_of_not_late] at hs
    rw [visitAll_of_not_late]
    have hq := inward_of_mem_listing hp hl
    have hinner : ∀ {S : Removal → Prop}, KeptBySteps S (Inward p.names) → ∀ late q r,
        Inward p.names q → S r → S (sweep fuel late true q (listing r.disk q) r) :=
      fun hS late q r hq hr => sweep_keeps (fun _ _ hq hname => hq.child hname) hS _ hq hr
    have hholds : KeptBySteps (fun r => r.disk.Holds p.names d.tree) (Inward p.names) :=
      keptBySteps_disk (P := fun e => e.Holds p.names d.tree)
        fun _ _ _ hq hd h => hd.kept hp.clean hq h
    have start : KeptBack (fun r => r.disk.Holds p.names d.tree) (Inward p.names)
        (⟨d, []⟩, none) := ⟨⟨hdir, FileTree.Within.refl _⟩, by intro e he; cases he⟩
    obtain ⟨hend, htaken⟩ := foldl_visit_each hinner hholds (fun e _ => takenUnlessFailed_kept p e)
      (fun e r he hr => takenUnlessFailed_attempt hp he hr.isDir) hq start
    refine ⟨hend.isDir, List.eq_nil_iff_forall_not_mem.2 fun name hm => ?_⟩
    -- Whatever is left was there from the start, and so was listed and taken.
    obtain ⟨node, hn⟩ := Option.isSome_iff_exists.1 (FileTree.mem_names.1 hm)
    have hname := FileTree.isEntryName_of_get? (by rw [hn]; simp) name (by simp)
    have hlisted := mem_listing hp htext hdir hl (hend.within _ _ hn)
    have hnone := (htaken _ hlisted).resolve_left (fun h => h hs) name hname rfl
    rw [hnone] at hn
    cases hn

/-- The removal of a directory: its contents, and then itself if that is wanted. -/
theorem removeTree_of_isDir (hp : p.IsCanonical) (htext : p.text.utf8ByteSize ≤ maxPathBytes)
    (hdir : d.tree.get? p.names = some .dir) (self : Bool) : d.removeTree p self =
      let r := sweep d.tree.height false true p (listing d p) ⟨d, []⟩
      if self then r.attempt ⟨p, true⟩ else r := by
  have hnul := hasNul_of_get? hp (by rw [hdir]; simp)
  have hnode : d.node .keep p = .ok .dir := by
    unfold node
    rw [land_of_isDir hp.isAbsolute hnul htext hp.clean hdir .keep (steps_cases p)]
    simp only [hdir]
  unfold removeTree
  rw [hnode]

/-- A directory that was emptied without failure is still there, and empty. -/
theorem emptied_of_removeTree (hp : p.IsCanonical) (hdir : d.isDir p = true)
    (hself : d.canonical p = .ok p) (hs : (d.removeTree p false).failures = []) :
    (d.removeTree p false).disk.isDir p = true ∧ (d.removeTree p false).disk.list p = .ok [] := by
  obtain ⟨_, htext, hget⟩ := isDir_of_canonical hdir hself
  have hsweep : d.removeTree p false =
      sweep (d.tree.root.height + 1) false true p (listing d p) ⟨d, []⟩ :=
    removeTree_of_isDir hp htext hget false
  rw [hsweep] at hs ⊢
  obtain ⟨hstill, hempty⟩ := emptied_of_sweep hp htext hget hs
  refine ⟨isDir_iff_node.2 ?_, ?_⟩
  · have hnul := hasNul_of_get? hp (by rw [hget]; simp)
    unfold node
    simp only [land_of_isDir hp.isAbsolute hnul htext hp.clean hstill .follow (steps_cases p), hstill]
  · rw [list_of_isDir hp htext hstill]
    exact congrArg _ (List.map_eq_nil_iff.1 hempty)

end Disk

end Datapack
