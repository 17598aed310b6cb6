import Datapack.Proofs.Walking

/-
  Datapack.Proofs.Following — one path followed on two trees, or in two ways.

  A walk that succeeds is one advance after another, each but the last up to a link
  (`Leads`, `walk_iff`), so what is said of such walks here goes by induction on those.

  The ways to follow a path differ at its last link alone. A walk that keeps that link ends
  on a node if any walk does, and on the same free name (`Leads.keep_cases`,
  `Leads.of_keep_vacant`); one that follows it ends on the same node if that is no link
  (`Leads.of_keep_node`). A walk for writing ends where one that follows the last link
  ends (`Leads.follow`), and neither ends on a link (`Leads.not_link`).

  Nothing that a walk has come along matters but what stands there:
  - in a tree that has more in it, and other content in its files, it ends on the same node
    (`Leads.node_of_outlines`), and on what has come to stand at its free name
    (`Leads.vacant_of_outlines`);
  - in a tree that has lost one place, it is the same walk, or what it looks for is not
    there (`walk_of_loses`).
-/

namespace Datapack

namespace FileTree

def linkBase (target : Path) (dir : Place) : Place := if target.isAbsolute then [] else dir

def linkNames (target : Path) (rest : List String) : List String :=
  if rest ≠ [] then target.names ++ rest else target.steps

/-- A walk with at most `links` links ends at `l`. -/
inductive Leads (t : FileTree) (last : LastLink) : Nat → Place → List String → Landing → Prop
  | here {links : Nat} {cur : Place} {names : List String} {l : Landing} :
      t.advance last cur names = .landed l → Leads t last links cur names l
  | through {links : Nat} {cur dir : Place} {names rest : List String} {target : Path} {l : Landing} :
      t.advance last cur names = .atLink dir target rest →
      (rest = [] → last = .write → target.endsInSeparator = false) →
      Leads t last links (linkBase target dir) (linkNames target rest) l →
      Leads t last (links + 1) cur names l

variable {t t' : FileTree} {last : LastLink} {links : Nat} {cur : Place} {names : List String}
  {l : Landing}

theorem Leads.walk (h : t.Leads last links cur names l) : t.walk last links cur names = .ok l := by
  induction h with
  | here ha =>
    unfold FileTree.walk
    rw [ha]
  | through ha hw _ ih =>
    unfold FileTree.walk
    rw [ha]
    simp only [linkNames, linkBase] at ih ⊢
    split
    · rename_i hr
      rwa [if_pos hr] at ih
    · rename_i hr
      rw [if_neg hr] at ih
      have hr : _ = [] := Decidable.of_not_not hr
      rw [if_neg, ih]
      simpa using hw hr

theorem leads_of_walk (h : t.walk last links cur names = .ok l) : t.Leads last links cur names l := by
  induction links generalizing cur names with
  | zero =>
    unfold FileTree.walk at h
    split at h
    · cases h
      exact .here ‹_›
    · cases h
    · cases h
  | succ links ih =>
    unfold FileTree.walk at h
    split at h
    · cases h
      exact .here ‹_›
    · cases h
    · rename_i dir target rest ha
      simp only at h
      split at h
      · rename_i hr
        refine .through ha (fun he => absurd he hr) (ih ?_)
        rw [linkNames, if_pos hr]
        exact h
      · rename_i hr
        split at h
        · split at h <;> cases h
        · rename_i hw
          refine .through ha (fun _ he => ?_) (ih ?_)
          · simpa [he] using hw
          · rw [linkNames, if_neg hr]
            exact h

theorem walk_iff : t.walk last links cur names = .ok l ↔ t.Leads last links cur names l :=
  ⟨leads_of_walk, Leads.walk⟩

theorem advance_ne_removed (t : FileTree) (last : LastLink) (cur : Place) (names : List String) :
    t.advance last cur names ≠ .landed .removed := by
  induction names generalizing cur with
  | nil => simp [advance_nil]
  | cons name rest ih =>
    rw [advance_cons]
    split
    · split
      · exact ih cur
      split
      · exact ih cur.dropLast
      split
      · simp
      split
      · split <;> simp
      · split <;> simp
      · exact ih (cur ++ [name])
    · simp

/-- No walk from a place in the tree ends in a removed directory. -/
theorem Leads.ne_removed (h : t.Leads last links cur names l) : l ≠ .removed := by
  induction h with
  | here ha =>
    rintro rfl
    exact advance_ne_removed _ _ _ _ ha
  | through _ _ _ ih => exact ih

/-! ## The last link -/

theorem advance_keep_cases (t : FileTree) (last : LastLink) (cur : Place) (names : List String) :
    (∃ q, t.advance .keep cur names = .landed (.node q)) ∨
      t.advance .keep cur names = t.advance last cur names := by
  induction names generalizing cur with
  | nil => exact .inl ⟨cur, advance_nil t .keep cur⟩
  | cons name rest ih =>
    rw [advance_cons, advance_cons]
    split
    · split
      · exact ih cur
      split
      · exact ih cur.dropLast
      split
      · exact .inr rfl
      split
      · exact .inr rfl
      · by_cases hr : rest = []
        · simp [hr]
        · simp [hr]
      · exact ih (cur ++ [name])
    · exact .inr rfl

/-- Where no link was kept, following makes no difference. -/
theorem advance_follow_of_keep {q : Place} (hq : ∀ target, t.get? q ≠ some (.link target))
    (h : t.advance .keep cur names = .landed (.node q)) :
    t.advance .follow cur names = .landed (.node q) := by
  induction names generalizing cur with
  | nil =>
    rw [advance_nil] at h ⊢
    exact h
  | cons name rest ih =>
    rw [advance_cons] at h ⊢
    split at h
    · rename_i hdir
      rw [if_pos hdir]
      split at h
      · rename_i hdot
        rw [if_pos hdot]
        exact ih h
      rename_i hdot
      rw [if_neg hdot]
      split at h
      · rename_i hdots
        rw [if_pos hdots]
        exact ih h
      rename_i hdots
      rw [if_neg hdots]
      split at h
      · cases h
      rename_i hlen
      rw [if_neg hlen]
      split at h
      · split at h <;> cases h
      · rename_i target hlink
        split at h
        · cases h
          exact absurd hlink (hq target)
        · cases h
      · exact ih h
    · cases h

theorem advance_write (t : FileTree) (cur : Place) (names : List String) :
    t.advance .write cur names = t.advance .follow cur names := by
  induction names generalizing cur with
  | nil => rw [advance_nil, advance_nil]
  | cons name rest ih => simp [advance_cons, ih]

/-- An advance stops at a link in a directory that it has come to, with the last names
still ahead, and at the last link only if that is not kept. -/
theorem advance_atLink {dir : Place} {target : Path} {rest : List String}
    (h : t.advance last cur names = .atLink dir target rest) :
    t.get? dir = some .dir ∧ rest <:+ names ∧ (last = .keep → rest ≠ []) := by
  induction names generalizing cur with
  | nil =>
    rw [advance_nil] at h
    cases h
  | cons name names ih =>
    have later : ∀ {next : Place}, t.advance last next names = .atLink dir target rest →
        t.get? dir = some .dir ∧ rest <:+ name :: names ∧ (last = .keep → rest ≠ []) := by
      intro next hnext
      obtain ⟨hdir, hsuffix, hkeep⟩ := ih hnext
      exact ⟨hdir, hsuffix.trans (List.suffix_cons _ _), hkeep⟩
    rw [advance_cons] at h
    split at h
    · rename_i hdir
      split at h
      · exact later h
      split at h
      · exact later h
      split at h
      · cases h
      split at h
      · split at h <;> cases h
      · split at h
        · cases h
        · rename_i hkeep
          cases h
          refine ⟨hdir, List.suffix_cons _ _, ?_⟩
          rintro rfl he
          simp [he] at hkeep
      · exact later h
    · cases h

namespace Leads

/-- Whoever keeps the last link gets to a node, or ends as any other walk does. -/
theorem keep_cases (h : t.Leads last links cur names l) :
    (∃ q, t.Leads .keep links cur names (.node q)) ∨ t.Leads .keep links cur names l := by
  induction h with
  | @here links cur names l ha =>
    rcases advance_keep_cases t last cur names with ⟨q, hq⟩ | he
    · exact .inl ⟨q, .here hq⟩
    · exact .inr (.here (he.trans ha))
  | @through links cur dir names rest target l ha _ _ ih =>
    rcases advance_keep_cases t last cur names with ⟨q, hq⟩ | he
    · exact .inl ⟨q, .here hq⟩
    · have hk := he.trans ha
      have hr : rest = [] → LastLink.keep = .write → target.endsInSeparator = false := by simp
      rcases ih with ⟨q, hq⟩ | hl
      · exact .inl ⟨q, .through hk hr hq⟩
      · exact .inr (.through hk hr hl)

/-- A free name is one for every walk. -/
theorem of_keep_vacant {dir : Place} {name : String} (last : LastLink)
    (h : t.Leads .keep links cur names (.vacant dir name)) :
    t.Leads last links cur names (.vacant dir name) := by
  generalize hl : Landing.vacant dir name = l at h
  induction h with
  | @here links cur names l ha =>
    rcases advance_keep_cases t last cur names with ⟨q, hq⟩ | he
    · rw [ha, ← hl] at hq
      cases hq
    · exact .here (he.symm.trans ha)
  | @through links cur d names rest target l ha _ _ ih =>
    have hr : rest ≠ [] := (advance_atLink ha).2.2 rfl
    rcases advance_keep_cases t last cur names with ⟨q, hq⟩ | he
    · rw [ha] at hq
      cases hq
    · exact .through (he.symm.trans ha) (fun h => absurd h hr) (ih hl)

/-- A node that is no link is there for who follows the last link as well. -/
theorem of_keep_node {q : Place} (hq : ∀ target, t.get? q ≠ some (.link target))
    (h : t.Leads .keep links cur names (.node q)) : t.Leads .follow links cur names (.node q) := by
  generalize hl : Landing.node q = l at h
  induction h with
  | here ha =>
    subst hl
    exact .here (advance_follow_of_keep hq ha)
  | @through links cur dir names rest target l ha _ _ ih =>
    have hr : rest ≠ [] := (advance_atLink ha).2.2 rfl
    rcases advance_keep_cases t .follow cur names with ⟨q', hq'⟩ | he
    · rw [ha] at hq'
      cases hq'
    · exact .through (he.symm.trans ha) (fun h => absurd h hr) (ih hl)

/-- What is found for writing is found by following. -/
theorem follow (h : t.Leads .write links cur names l) : t.Leads .follow links cur names l := by
  induction h with
  | here ha =>
    rw [advance_write] at ha
    exact .here ha
  | through ha _ _ ih =>
    rw [advance_write] at ha
    exact .through ha (by simp) ih

end Leads

/-- Above a directory there is one. -/
theorem isDir_dropLast (h : t.get? cur = some .dir) : t.get? cur.dropLast = some .dir := by
  rcases List.eq_nil_or_concat cur with rfl | ⟨init, name, rfl⟩
  · exact h
  · rw [List.concat_eq_append] at h ⊢
    rw [List.dropLast_concat]
    exact get?_of_child h

theorem not_link_of_advance (hlast : last ≠ .keep) (hcur : ∀ target, t.get? cur ≠ some (.link target))
    {q : Place} (h : t.advance last cur names = .landed (.node q)) (target : Path) :
    t.get? q ≠ some (.link target) := by
  induction names generalizing cur with
  | nil =>
    rw [advance_nil] at h
    cases h
    exact hcur target
  | cons name rest ih =>
    rw [advance_cons] at h
    split at h
    · rename_i hdir
      split at h
      · exact ih hcur h
      split at h
      · exact ih (by simp [isDir_dropLast hdir]) h
      split at h
      · cases h
      split at h
      · split at h <;> cases h
      · simp [hlast] at h
      · rename_i node hlink hnode
        refine ih ?_ h
        intro target he
        rw [hnode] at he
        exact hlink target (Option.some.inj he)
    · cases h

theorem not_link_linkBase {dir : Place} (target : Path) (h : t.get? dir = some .dir) (x : Path) :
    t.get? (linkBase target dir) ≠ some (.link x) := by
  unfold linkBase
  split
  · simp
  · simp [h]

/-- Whoever follows the last link does not end on one. -/
theorem Leads.not_link (hlast : last ≠ .keep) (hcur : ∀ target, t.get? cur ≠ some (.link target))
    {q : Place} (h : t.Leads last links cur names (.node q)) (target : Path) :
    t.get? q ≠ some (.link target) := by
  generalize hl : Landing.node q = l at h
  induction h with
  | here ha =>
    subst hl
    exact not_link_of_advance hlast hcur ha target
  | @through links cur dir names rest x l ha _ _ ih =>
    exact ih (not_link_linkBase x (advance_atLink ha).1) hl

theorem ne_nil_of_advance {q : Place} {name : String}
    (h : t.advance .keep cur names = .landed (.node q)) (hlast : names.getLast? = some name)
    (hdot : name ≠ ".") (hdots : name ≠ "..") : q ≠ [] := by
  induction names generalizing cur with
  | nil => cases hlast
  | cons n rest ih =>
    by_cases hr : rest = []
    · subst hr
      obtain rfl : n = name := by simpa using hlast
      rw [advance_cons] at h
      split at h
      · split at h
        · cases h
        split at h
        · cases h
        · cases h
          simp
        · rw [advance_nil] at h
          cases h
          simp
      · cases h
    · have hlater : rest.getLast? = some name := by
        rw [← hlast, List.getLast?_cons]
        simp [List.getLast?_eq_some_getLast hr]
      rw [advance_cons] at h
      split at h
      · split at h
        · exact ih h hlater
        split at h
        · exact ih h hlater
        split at h
        · cases h
        split at h
        · cases h
        · split at h
          · cases h
            simp
          · cases h
        · exact ih h hlater
      · cases h

/-- A name of its own at the end leads to a place below the root. -/
theorem Leads.ne_nil {q : Place} {name : String} (h : t.Leads .keep links cur names (.node q))
    (hlast : names.getLast? = some name) (hdot : name ≠ ".") (hdots : name ≠ "..") : q ≠ [] := by
  generalize hl : Landing.node q = l at h
  induction h with
  | here ha =>
    subst hl
    exact ne_nil_of_advance ha hlast hdot hdots
  | @through links cur dir names rest target l ha _ _ ih =>
    obtain ⟨_, ⟨front, hfront⟩, hkeep⟩ := advance_atLink ha
    have hr : rest ≠ [] := hkeep rfl
    refine ih ?_ hl
    rw [← hfront, List.getLast?_append] at hlast
    rw [linkNames, if_pos hr, List.getLast?_append]
    rw [List.getLast?_eq_some_getLast hr] at hlast ⊢
    exact hlast

/-! ## A tree that has more in it -/

def Within (t t' : FileTree) : Prop := ∀ q node, t.get? q = some node → t'.get? q = some node

theorem Within.refl (t : FileTree) : t.Within t := fun _ _ h => h

theorem Within.trans {t'' : FileTree} (h : t.Within t') (h' : t'.Within t'') : t.Within t'' :=
  fun q node hq => h' q node (h q node hq)

theorem Within.get?_none (h : t.Within t') {q : Place} (hq : t'.get? q = none) : t.get? q = none := by
  cases hget : t.get? q with
  | none => rfl
  | some node =>
    rw [h q node hget] at hq
    cases hq

/-- What a walk can tell of a node: all but the content of a file. -/
def shape : Node → Node
  | .file _ => .file .empty
  | node => node

/-- Wherever something stands in `t`, the like of it stands in `t'`. -/
def Outlines (t t' : FileTree) : Prop :=
  ∀ q node, t.get? q = some node → (t'.get? q).map shape = some (shape node)

theorem Within.outlines (h : t.Within t') : t.Outlines t' := by
  intro q node hq
  rw [h q node hq]
  rfl

namespace Outlines

theorem dir (h : t.Outlines t') {q : Place} (hq : t.get? q = some .dir) : t'.get? q = some .dir := by
  obtain ⟨node, hnode, hshape⟩ := Option.map_eq_some_iff.1 (h q .dir hq)
  cases node with
  | dir => exact hnode
  | file | link => cases hshape

theorem link (h : t.Outlines t') {q : Place} {target : Path} (hq : t.get? q = some (.link target)) :
    t'.get? q = some (.link target) := by
  obtain ⟨node, hnode, hshape⟩ := Option.map_eq_some_iff.1 (h q _ hq)
  cases node with
  | link => rwa [show _ = target from Node.link.inj hshape] at hnode
  | dir | file => cases hshape

theorem file (h : t.Outlines t') {q : Place} {bytes : ByteArray} (hq : t.get? q = some (.file bytes)) :
    ∃ bytes', t'.get? q = some (.file bytes') := by
  obtain ⟨node, hnode, hshape⟩ := Option.map_eq_some_iff.1 (h q _ hq)
  cases node with
  | file bytes' => exact ⟨bytes', hnode⟩
  | dir | link => cases hshape

/-- The advance is the same, if it did not fail or end on a free name. -/
theorem advance (h : t.Outlines t') (last : LastLink) (cur : Place) (names : List String) :
    t'.advance last cur names = t.advance last cur names ∨
    (∃ f, t.advance last cur names = .failed f) ∨
    ∃ dir name, t.advance last cur names = .landed (.vacant dir name) := by
  induction names generalizing cur with
  | nil =>
    rw [advance_nil, advance_nil]
    exact .inl rfl
  | cons name rest ih =>
    rw [advance_cons, advance_cons]
    by_cases hdir : t.get? cur = some .dir
    · rw [if_pos hdir, if_pos (h.dir hdir)]
      split
      · exact ih cur
      split
      · exact ih cur.dropLast
      split
      · exact .inl rfl
      cases hchild : t.get? (cur ++ [name]) with
      | none =>
        right
        by_cases hr : rest = []
        · exact .inr ⟨cur, name, by simp [hr]⟩
        · exact .inl ⟨.notFound, by simp [hr]⟩
      | some node =>
        cases node with
        | link target =>
          rw [h.link hchild]
          exact .inl rfl
        | dir =>
          rw [h.dir hchild]
          exact ih (cur ++ [name])
        | file bytes =>
          obtain ⟨bytes', hfile⟩ := h.file hchild
          rw [hfile]
          exact ih (cur ++ [name])
    · rw [if_neg hdir]
      exact .inr (.inl ⟨_, rfl⟩)

theorem advance_vacant (h : t.Outlines t') {dir : Place} {name : String} {node : Node}
    (hnode : t'.get? (dir ++ [name]) = some node) (hlink : ∀ target, node ≠ .link target)
    (ha : t.advance last cur names = .landed (.vacant dir name)) :
    t'.advance last cur names = .landed (.node (dir ++ [name])) := by
  induction names generalizing cur with
  | nil =>
    rw [advance_nil] at ha
    cases ha
  | cons n rest ih =>
    rw [advance_cons] at ha ⊢
    split at ha
    · rename_i hdir
      rw [if_pos (h.dir hdir)]
      split at ha
      · rename_i hdot
        rw [if_pos hdot]
        exact ih ha
      rename_i hdot
      rw [if_neg hdot]
      split at ha
      · rename_i hdots
        rw [if_pos hdots]
        exact ih ha
      rename_i hdots
      rw [if_neg hdots]
      split at ha
      · cases ha
      rename_i hlen
      rw [if_neg hlen]
      cases hchild : t.get? (cur ++ [n]) with
      | none =>
        rw [hchild] at ha
        by_cases hr : rest = []
        · simp only [hr, if_true, Advance.landed.injEq, Landing.vacant.injEq] at ha
          obtain ⟨rfl, rfl⟩ := ha
          rw [hnode]
          cases node with
          | link target => exact absurd rfl (hlink target)
          | dir | file => simp [hr, advance_nil]
        · simp [hr] at ha
      | some c =>
        rw [hchild] at ha
        cases c with
        | link target =>
          simp only at ha
          split at ha <;> cases ha
        | dir =>
          rw [h.dir hchild]
          exact ih ha
        | file bytes =>
          obtain ⟨bytes', hfile⟩ := h.file hchild
          rw [hfile]
          exact ih ha
    · cases ha

end Outlines

namespace Leads

theorem node_of_outlines (h : t.Outlines t') {q : Place}
    (hl : t.Leads last links cur names (.node q)) : t'.Leads last links cur names (.node q) := by
  generalize he : Landing.node q = l at hl
  induction hl with
  | @here links cur names l ha =>
    rcases h.advance last cur names with hs | ⟨f, hf⟩ | ⟨dir, name, hv⟩
    · exact .here (hs.trans ha)
    · rw [hf] at ha
      cases ha
    · rw [hv, ← he] at ha
      cases ha
  | @through links cur dir names rest target l ha hw _ ih =>
    rcases h.advance last cur names with hs | ⟨f, hf⟩ | ⟨dir, name, hv⟩
    · exact .through (hs.trans ha) hw (ih he)
    · rw [hf] at ha
      cases ha
    · rw [hv] at ha
      cases ha

theorem vacant_of_outlines (h : t.Outlines t') {dir : Place} {name : String} {node : Node}
    (hnode : t'.get? (dir ++ [name]) = some node) (hlink : ∀ target, node ≠ .link target)
    (hl : t.Leads last links cur names (.vacant dir name)) :
    t'.Leads last links cur names (.node (dir ++ [name])) := by
  generalize he : Landing.vacant dir name = l at hl
  induction hl with
  | here ha =>
    subst he
    exact .here (h.advance_vacant hnode hlink ha)
  | @through links cur d names rest target l ha hw _ ih =>
    rcases h.advance last cur names with hs | ⟨f, hf⟩ | ⟨e, n, hv⟩
    · exact .through (hs.trans ha) hw (ih he)
    · rw [hf] at ha
      cases ha
    · rw [hv] at ha
      cases ha

end Leads

/-! ## A tree that has lost one place -/

def Loses (t t' : FileTree) (place : Place) : Prop :=
  ∀ q, t'.get? q = if q = place then none else t.get? q

theorem Loses.within {place : Place} (h : t.Loses t' place) : t'.Within t := by
  intro q node hq
  rw [h q] at hq
  split at hq
  · cases hq
  · exact hq

def Misses (t : FileTree) (last : LastLink) (links : Nat) (cur : Place) (names : List String) : Prop :=
  t.walk last links cur names = .error .notFound ∨
    ∃ dir name, t.walk last links cur names = .ok (.vacant dir name)

theorem advance_of_loses {place : Place} (h : t.Loses t' place) (last : LastLink)
    {cur : Place} (hcur : t'.get? cur = t.get? cur) (names : List String) :
    t'.advance last cur names = t.advance last cur names ∨
    t'.advance last cur names = .failed .notFound ∨
    ∃ dir name, t'.advance last cur names = .landed (.vacant dir name) := by
  induction names generalizing cur with
  | nil =>
    rw [advance_nil, advance_nil]
    exact .inl rfl
  | cons name rest ih =>
    rw [advance_cons, advance_cons, hcur]
    by_cases hdir : t.get? cur = some .dir
    · rw [if_pos hdir, if_pos hdir]
      split
      · exact ih hcur
      split
      · refine ih ?_
        rw [isDir_dropLast hdir, isDir_dropLast (hcur.trans hdir)]
      split
      · exact .inl rfl
      by_cases hc : cur ++ [name] = place
      · right
        rw [h (cur ++ [name]), if_pos hc]
        by_cases hr : rest = []
        · exact .inr ⟨cur, name, by simp [hr]⟩
        · exact .inl (by simp [hr])
      · have hsame : t'.get? (cur ++ [name]) = t.get? (cur ++ [name]) := by
          rw [h (cur ++ [name]), if_neg hc]
        rw [hsame]
        cases t.get? (cur ++ [name]) with
        | none => exact .inl rfl
        | some node =>
          cases node with
          | link target => exact .inl rfl
          | dir | file => exact ih hsame
    · rw [if_neg hdir, if_neg hdir]
      exact .inl rfl

theorem walk_through {dir : Place} {target : Path} {rest : List String}
    (h : t.advance last cur names = .atLink dir target rest) (hr : rest ≠ []) (links : Nat) :
    t.walk last (links + 1) cur names =
      t.walk last links (linkBase target dir) (target.names ++ rest) := by
  conv => lhs; unfold walk
  rw [h]
  simp only [ne_eq, hr, not_false_eq_true, if_true]
  rfl

/-- A walk that keeps the last link is what it was, or it finds nothing any more. -/
theorem walk_of_loses {place : Place} (h : t.Loses t' place) (links : Nat) {cur : Place}
    (hcur : t'.get? cur = t.get? cur) (names : List String) :
    t'.walk .keep links cur names = t.walk .keep links cur names ∨
      t'.Misses .keep links cur names := by
  have missed : t'.advance .keep cur names = .failed .notFound ∨
      (∃ dir name, t'.advance .keep cur names = .landed (.vacant dir name)) →
      t'.Misses .keep links cur names := by
    rintro (hf | ⟨dir, name, hv⟩)
    · left
      unfold walk
      rw [hf]
    · right
      refine ⟨dir, name, ?_⟩
      unfold walk
      rw [hv]
  rcases advance_of_loses h .keep hcur names with hs | hm
  · cases ha : t.advance .keep cur names with
    | landed l | failed f =>
      left
      unfold walk
      rw [hs, ha]
    | atLink dir target rest =>
      rw [ha] at hs
      cases links with
      | zero =>
        left
        unfold walk
        rw [hs, ha]
      | succ links =>
        have hr : rest ≠ [] := (advance_atLink ha).2.2 rfl
        have hbase : t'.get? (linkBase target dir) = t.get? (linkBase target dir) := by
          unfold linkBase
          split
          · simp
          · rw [(advance_atLink ha).1, (advance_atLink hs).1]
        unfold Misses
        rw [walk_through hs hr, walk_through ha hr]
        exact walk_of_loses h links hbase _
  · exact .inr (missed hm)

end FileTree

end Datapack
