import Datapack.Proofs.Entering

/-
  Datapack.Proofs.Continuing — going on behind what a path leads to.

  Where a path leads to a directory, one with more names behind it goes on from there
  (`FileTree.Leads.continue`, `Disk.locate_continue`): links on the way to the directory
  leave fewer to be followed, and nothing else of the way matters. Behind a link whose
  target ends in a separator a `.` is walked along that a longer path does not have; a `.`
  in the middle is never noticed (`walk_dot`).

  At the end a `.` only asks for a directory. What leads to one with it leads to something
  without it (`Leads.keep_of_concat_dot`), so where a directory is nothing is free
  (`Disk.land_keep_of_isDir`), and nothing can be made.
-/

namespace Datapack

namespace FileTree

variable {t : FileTree} {last : LastLink} {links : Nat} {cur place : Place}
  {names rest : List String}

/-! ## A dot in the middle -/

theorem advance_dot (t : FileTree) (last : LastLink) (cur : Place) (names : List String)
    (hrest : rest ≠ []) :
    t.advance last cur (names ++ "." :: rest) = t.advance last cur (names ++ rest) ∨
      ∃ dir target r, t.advance last cur (names ++ "." :: rest) = .atLink dir target (r ++ "." :: rest) ∧
        t.advance last cur (names ++ rest) = .atLink dir target (r ++ rest) := by
  induction names generalizing cur with
  | nil =>
    left
    obtain ⟨name, later, rfl⟩ := List.exists_cons_of_ne_nil hrest
    rw [List.nil_append, List.nil_append, advance_cons]
    split
    · rw [if_pos rfl]
    · rename_i hdir
      rw [advance_cons, if_neg hdir]
  | cons name names ih =>
    rw [List.cons_append, List.cons_append, advance_cons, advance_cons]
    split
    · split
      · exact ih cur
      split
      · exact ih cur.dropLast
      split
      · exact .inl rfl
      split
      · simp [hrest]
      · rename_i target _
        right
        exact ⟨cur, target, names, by simp, by simp [hrest]⟩
      · exact ih (cur ++ [name])
    · exact .inl rfl

theorem walk_of_advance {cur' : Place} {names' : List String}
    (h : t.advance last cur names = t.advance last cur' names') (links : Nat) :
    t.walk last links cur names = t.walk last links cur' names' := by
  unfold walk
  rw [h]

theorem walk_dot (t : FileTree) (last : LastLink) (links : Nat) (cur : Place) (names : List String)
    (hrest : rest ≠ []) :
    t.walk last links cur (names ++ "." :: rest) = t.walk last links cur (names ++ rest) := by
  induction links generalizing cur names with
  | zero =>
    rcases advance_dot t last cur names hrest with h | ⟨dir, target, r, hd, hn⟩
    · exact walk_of_advance h 0
    · unfold walk
      rw [hd, hn]
  | succ links ih =>
    rcases advance_dot t last cur names hrest with h | ⟨dir, target, r, hd, hn⟩
    · exact walk_of_advance h (links + 1)
    · rw [walk_through hd (by simp), walk_through hn (by simp [hrest]), ← List.append_assoc,
        ← List.append_assoc]
      exact ih _ _

/-! ## More names -/

theorem advance_of_landed (last : LastLink) (h : t.advance .follow cur names = .landed (.node place)) :
    t.advance last cur (names ++ rest) = t.advance last place rest := by
  induction names generalizing cur with
  | nil =>
    rw [advance_nil] at h
    cases h
    rfl
  | cons name names ih =>
    rw [advance_cons] at h
    rw [List.cons_append, advance_cons]
    split at h
    · rename_i hdir
      rw [if_pos hdir]
      split at h
      · rename_i hdot
        rw [if_pos hdot]
        exact ih h
      rename_i hdot
      rw [if_neg hdot]
      split at h
      · rename_i hdots
        rw [if_pos hdots]
        exact ih h
      rename_i hdots
      rw [if_neg hdots]
      split at h
      · cases h
      rename_i hlen
      rw [if_neg hlen]
      split at h
      · split at h <;> cases h
      · simp at h
      · exact ih h
    · cases h

theorem advance_of_atLink (last : LastLink) (hrest : rest ≠ []) {dir : Place} {target : Path}
    {r : List String} (h : t.advance .follow cur names = .atLink dir target r) :
    t.advance last cur (names ++ rest) = .atLink dir target (r ++ rest) := by
  induction names generalizing cur with
  | nil =>
    rw [advance_nil] at h
    cases h
  | cons name names ih =>
    rw [advance_cons] at h
    rw [List.cons_append, advance_cons]
    split at h
    · rename_i hdir
      rw [if_pos hdir]
      split at h
      · rename_i hdot
        rw [if_pos hdot]
        exact ih h
      rename_i hdot
      rw [if_neg hdot]
      split at h
      · rename_i hdots
        rw [if_pos hdots]
        exact ih h
      rename_i hdots
      rw [if_neg hdots]
      split at h
      · cases h
      rename_i hlen
      rw [if_neg hlen]
      split at h
      · split at h <;> cases h
      · simp only [reduceCtorEq, decide_false, Bool.and_false, Bool.false_eq_true, if_false,
          Advance.atLink.injEq] at h
        obtain ⟨rfl, rfl, rfl⟩ := h
        simp [hrest]
      · exact ih h
    · cases h

/-- Behind a link the names of its target are walked along, with a `.` at most. -/
theorem linkNames_nil (target : Path) :
    linkNames target [] = target.names ∨ linkNames target [] = target.names ++ ["."] := by
  unfold linkNames Path.steps
  rw [if_neg (by simp)]
  split
  · exact .inr rfl
  · exact .inl rfl

/-- A walk along more names goes on from where they lead, with as many links as are left. -/
theorem Leads.continue (h : t.Leads .follow links cur names (.node place)) (hrest : rest ≠ []) :
    ∃ left, ∀ last, t.walk last links cur (names ++ rest) = t.walk last left place rest := by
  generalize hl : Landing.node place = l at h
  induction h with
  | @here links cur names l ha =>
    subst hl
    exact ⟨links, fun last => walk_of_advance (advance_of_landed last ha) links⟩
  | @through links cur dir names r target l ha _ _ ih =>
    obtain ⟨left, hleft⟩ := ih hl
    refine ⟨left, fun last => ?_⟩
    rw [← hleft last, walk_through (advance_of_atLink last hrest ha) (by simp [hrest])]
    by_cases hr : r = []
    · subst hr
      rcases linkNames_nil target with hn | hn
      · rw [hn, List.nil_append]
      · rw [hn, List.append_assoc, List.singleton_append, walk_dot _ _ _ _ _ hrest,
          List.nil_append]
    · rw [linkNames, if_pos hr, List.append_assoc]

/-! ## Fewer names -/

/-- A walk that ends without a link has come through a directory at each name but the last. -/
theorem advance_above {l : Landing} (hrest : rest ≠ []) (h : t.advance last cur (names ++ rest) = .landed l) :
    ∃ dir, t.advance .follow cur names = .landed (.node dir) ∧ t.get? dir = some .dir := by
  induction names generalizing cur with
  | nil =>
    obtain ⟨name, more, rfl⟩ := List.exists_cons_of_ne_nil hrest
    rw [List.nil_append, advance_cons] at h
    split at h
    · exact ⟨cur, advance_nil _ _ _, ‹_›⟩
    · cases h
  | cons name names ih =>
    rw [List.cons_append, advance_cons] at h
    rw [advance_cons]
    split at h
    · rename_i hdir
      rw [if_pos hdir]
      split at h
      · rename_i hdot
        rw [if_pos hdot]
        exact ih h
      rename_i hdot
      rw [if_neg hdot]
      split at h
      · rename_i hdots
        rw [if_pos hdots]
        exact ih h
      rename_i hdots
      rw [if_neg hdots]
      split at h
      · cases h
      rename_i hlen
      rw [if_neg hlen]
      split at h
      · simp [hrest] at h
      · simp [hrest] at h
      · exact ih h
    · cases h

/-- Without links a walk is one stretch. -/
theorem advance_of_leads (ht : t.LinkFree) {l : Landing} (h : t.Leads last links cur names l) :
    t.advance last cur names = .landed l := by
  cases h with
  | here ha => exact ha
  | through ha _ _ =>
    rcases advance_of_linkFree ht last cur names with ⟨f, hf⟩ | ⟨l', hl, _⟩
    · rw [hf] at ha
      cases ha
    · rw [hl] at ha
      cases ha

/-! ## A dot at the end -/

theorem advance_concat_dot (t : FileTree) (cur : Place) (names : List String) :
    (∃ q, t.advance .keep cur names = .landed (.node q)) ∨
    (∃ f, t.advance .follow cur (names ++ ["."]) = .failed f) ∨
    ∃ dir target rest, rest ≠ [] ∧ t.advance .keep cur names = .atLink dir target rest ∧
      t.advance .follow cur (names ++ ["."]) = .atLink dir target (rest ++ ["."]) := by
  induction names generalizing cur with
  | nil => exact .inl ⟨cur, advance_nil t .keep cur⟩
  | cons name names ih =>
    rw [List.cons_append, advance_cons, advance_cons]
    split
    · split
      · exact ih cur
      split
      · exact ih cur.dropLast
      split
      · exact .inr (.inl ⟨_, rfl⟩)
      split
      · exact .inr (.inl ⟨.notFound, by simp⟩)
      · rename_i target _
        by_cases hn : names = []
        · exact .inl ⟨cur ++ [name], by simp [hn]⟩
        · exact .inr (.inr ⟨cur, target, names, hn, by simp [hn], by simp⟩)
      · exact ih (cur ++ [name])
    · exact .inr (.inl ⟨_, rfl⟩)

/-- What is a directory is there, also for who keeps a link at the end. -/
theorem Leads.keep_of_concat_dot (h : t.Leads .follow links cur (names ++ ["."]) (.node place)) :
    ∃ q, t.Leads .keep links cur names (.node q) := by
  generalize hl : Landing.node place = l at h
  generalize hn : names ++ ["."] = steps at h
  induction h generalizing names with
  | @here links cur steps l ha =>
    subst hl hn
    rcases advance_concat_dot t cur names with ⟨q, hq⟩ | ⟨f, hf⟩ | ⟨dir, target, rest, _, _, hlink⟩
    · exact ⟨q, .here hq⟩
    · rw [hf] at ha
      cases ha
    · rw [hlink] at ha
      cases ha
  | @through links cur dir steps r target l ha _ _ ih =>
    subst hn
    rcases advance_concat_dot t cur names with ⟨q, hq⟩ | ⟨f, hf⟩ | ⟨e, x, rest, hrest, hkeep, hlink⟩
    · exact ⟨q, .here hq⟩
    · rw [hf] at ha
      cases ha
    · rw [hlink] at ha
      cases ha
      have hnames : (linkNames target rest) ++ ["."] = linkNames target (rest ++ ["."]) := by
        simp [linkNames, hrest]
      obtain ⟨q, hq⟩ := ih hl hnames
      exact ⟨q, .through hkeep (by simp) hq⟩

end FileTree

/-! ## Paths -/

/-- A `.` never leads out of a removed directory. -/
theorem Workdir.leave_concat_dot (removed : Nat) (names : List String) :
    leave removed (names ++ ["."]) = (leave removed names).map (Option.map (· ++ ["."])) := by
  induction names generalizing removed with
  | nil => cases removed <;> rfl
  | cons name names ih =>
    cases removed with
    | zero => rfl
    | succ removed =>
      simp only [List.cons_append, leave]
      split
      · exact ih _
      split
      · exact ih _
      · rfl

namespace Disk

variable {d : Disk} {p q : Path} {place : Place}

theorem Begins.of_concat_dot {w : Workdir} {absolute : Bool} {names rest : List String} {cur : Place}
    (h : Begins w absolute (names ++ ["."]) cur rest) :
    ∃ start, rest = start ++ ["."] ∧ Begins w absolute names cur start := by
  cases absolute with
  | true =>
    obtain ⟨hcur, hrest⟩ : cur = [] ∧ rest = names ++ ["."] := by simpa [Begins] using h
    exact ⟨names, hrest, by simp [Begins, hcur]⟩
  | false =>
    obtain ⟨hcur, hleave⟩ : cur = w.base ∧ Workdir.leave w.removed (names ++ ["."]) = .ok (some rest) := by
      simpa [Begins] using h
    rw [Workdir.leave_concat_dot] at hleave
    cases hn : Workdir.leave w.removed names with
    | error f =>
      rw [hn] at hleave
      cases hleave
    | ok left =>
      rw [hn] at hleave
      cases left with
      | none => cases hleave
      | some start =>
        cases hleave
        exact ⟨start, rfl, by simp [Begins, hcur, hn]⟩

/-- Where a path leads, those go on that have more names behind it. -/
theorem locate_continue (h : d.locate .follow p p.steps = .ok (.node place)) {q : Path}
    (hq : q.isAbsolute = p.isAbsolute) {rest : List String} (hrest : rest ≠ []) (htext : q.text ≠ "") :
    ∃ left, ∀ last, d.locate last q (p.names ++ rest) = d.tree.walk last left place rest := by
  obtain ⟨_, hcases⟩ := begins_of_locate h
  obtain ⟨cur, steps, hbegins, hw⟩ := hcases.resolve_left (by simp)
  have hleads := FileTree.leads_of_walk hw
  obtain ⟨left, hleft⟩ := hleads.continue hrest
  refine ⟨left, fun last => ?_⟩
  rw [← hq] at hbegins
  unfold Path.steps at hbegins
  split at hbegins
  · obtain ⟨start, rfl, hstart⟩ := hbegins.of_concat_dot
    rw [locate_of_begins htext (hstart.append rest), ← hleft last, List.append_assoc,
      List.singleton_append, FileTree.walk_dot _ _ _ _ _ hrest]
  · rw [locate_of_begins htext (hbegins.append rest), hleft last]

/-- A directory is at a place, or has been removed. -/
theorem land_of_isDir_cases (h : d.isDir p = true) :
    (∃ q, d.land .follow p p.steps = .ok (.node q) ∧ d.tree.get? q = some .dir) ∨
      d.land .follow p p.steps = .ok .removed := by
  unfold isDir node at h
  split at h
  · rename_i hn
    split at hn
    · rename_i q hl
      split at hn
      · rename_i hget
        cases hn
        exact .inl ⟨q, hl, hget⟩
      · cases hn
    · cases hn
    · exact .inr ‹_›
    · cases hn
  · cases h

theorem land_iff_locate {last : LastLink} {names : List String} {l : Landing} :
    d.land last p names = .ok l ↔ p.hasNul = false ∧ p.text.utf8ByteSize ≤ maxPathBytes ∧
      d.locate last p names = .ok l := by
  unfold land
  constructor
  · intro h
    split at h
    · cases h
    rename_i hnul
    split at h
    · cases h
    rename_i hlen
    exact ⟨by simpa using hnul, Nat.le_of_not_lt hlen, h⟩
  · rintro ⟨hnul, hlen, h⟩
    rw [if_neg (by simp [hnul]), if_neg (Nat.not_lt.2 hlen), h]

/-- The canonical path of a directory is that of its place. -/
theorem isDir_of_canonical (hdir : d.isDir p = true) (h : d.canonical p = .ok q) :
    q.IsCanonical ∧ q.text.utf8ByteSize ≤ maxPathBytes ∧ d.tree.get? q.names = some .dir := by
  have hcanonical := isCanonical_of_canonical h
  obtain ⟨place, rfl, hlocate, hget, _, hshort, _⟩ := canonical_ok h
  have hnames := Path.names_ofEntries (FileTree.isEntryName_of_get? hget)
  refine ⟨hcanonical, hshort, ?_⟩
  rw [hnames]
  rcases land_of_isDir_cases hdir with ⟨q, hl, hq⟩ | hl
  · rw [(land_iff_locate.1 hl).2.2] at hlocate
    cases hlocate
    exact hq
  · rw [(land_iff_locate.1 hl).2.2] at hlocate
    cases hlocate

/-- A path that ends in a removed directory leads out of the tree. -/
theorem locate_removed {last : LastLink} {names : List String} :
    d.locate last p names = .ok .removed ↔ p.text ≠ "" ∧ p.isAbsolute = false ∧
      Workdir.leave d.workdir.removed names = .ok none := by
  constructor
  · intro h
    unfold locate at h
    split at h
    · cases h
    rename_i htext
    split at h
    · exact absurd rfl (FileTree.leads_of_walk h).ne_removed
    rename_i habs
    split at h
    · exact absurd rfl (FileTree.leads_of_walk h).ne_removed
    · rename_i hleave
      exact ⟨htext, by simpa using habs, hleave⟩
    · cases h
  · rintro ⟨htext, habs, hleave⟩
    unfold locate
    rw [if_neg htext, if_neg (by simp [habs]), hleave]

/-- Nothing is free where a directory is, be it at the end of a link. -/
theorem land_keep_of_isDir (h : d.isDir p = true) :
    d.land .keep p p.names = .ok .removed ∨ ∃ q, d.land .keep p p.names = .ok (.node q) := by
  rcases land_of_isDir_cases h with ⟨q, hl, _⟩ | hl
  · right
    obtain ⟨hnul, hlen, htext, cur, rest, hbegins, hw⟩ := walk_of_land hl (by simp)
    have hleads := FileTree.leads_of_walk hw
    obtain ⟨start, hstart, q', hkeep⟩ : ∃ start, Begins d.workdir p.isAbsolute p.names cur start ∧
        ∃ q', d.tree.Leads .keep maxLinks cur start (.node q') := by
      unfold Path.steps at hbegins
      split at hbegins
      · obtain ⟨start, rfl, hstart⟩ := hbegins.of_concat_dot
        exact ⟨start, hstart, hleads.keep_of_concat_dot⟩
      · rcases hleads.keep_cases with hk | hk
        · exact ⟨rest, hbegins, hk⟩
        · exact ⟨rest, hbegins, q, hk⟩
    refine ⟨q', land_iff_locate.2 ⟨hnul, hlen, ?_⟩⟩
    rw [locate_of_begins htext hstart, hkeep.walk]
  · left
    obtain ⟨hnul, hlen, hlocate⟩ := land_iff_locate.1 hl
    obtain ⟨htext, habs, hleave⟩ := locate_removed.1 hlocate
    refine land_iff_locate.2 ⟨hnul, hlen, locate_removed.2 ⟨htext, habs, ?_⟩⟩
    unfold Path.steps at hleave
    split at hleave
    · rw [Workdir.leave_concat_dot] at hleave
      cases hn : Workdir.leave d.workdir.removed p.names with
      | error f =>
        rw [hn] at hleave
        cases hleave
      | ok left =>
        rw [hn] at hleave
        cases left with
        | none => rfl
        | some start => cases hleave
    · exact hleave

end Disk

end Datapack
