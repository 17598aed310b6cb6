import Datapack.Disk.Lookup
import Datapack.Proofs.Names

/-
  Datapack.Proofs.Walking — where a walk through a file tree lands.

  A walk that succeeds lands on a node that is there, or on a free name in an existing
  directory, and that name is one a node can have (`Landing.FitsIn`, `walk_fitsIn`): a
  link adds nothing else, since its target is made of such names as well.

  Along folded names a walk gets to every directory and goes on (`advance_append`), it gets
  to every file (`advance_to`) and to a link that is kept (`advance_keep_to`), and not past
  a place with nothing at it (`advance_of_missing`).

  Where no link is in the way, a walk along names is their fold. It may fail on the way,
  but it can land nowhere else (`place?_of_walk`), and along folded names it does get to
  whatever is there (`walk_of_get?`).
-/

namespace Datapack

/-! ## Names that a walk goes along -/

/-- A name that is walked along; `.` and `..` are. -/
def IsStepName (name : String) : Prop := Path.IsStretch name ∧ '\x00' ∉ name.toList

theorem isEntryName_iff {name : String} : isEntryName name = true ↔
    IsStepName name ∧ name ≠ "." ∧ name ≠ ".." ∧ name.utf8ByteSize ≤ maxNameBytes := by
  simp only [isEntryName, IsStepName, Path.IsStretch, Bool.and_eq_true, decide_eq_true_eq,
    Bool.not_eq_true', List.contains_eq_mem, decide_eq_false_iff_not, ne_eq]
  constructor
  · rintro ⟨⟨⟨⟨⟨h1, h2⟩, h3⟩, h4⟩, h5⟩, h6⟩
    exact ⟨⟨⟨h1, h4⟩, h5⟩, h2, h3, h6⟩
  · rintro ⟨⟨⟨h1, h4⟩, h5⟩, h2, h3, h6⟩
    exact ⟨⟨⟨⟨⟨h1, h2⟩, h3⟩, h4⟩, h5⟩, h6⟩

theorem isStretch_of_isEntryName {name : String} (h : isEntryName name = true) :
    Path.IsStretch name := (isEntryName_iff.1 h).1.1

theorem isStepName_dot : IsStepName "." := by
  unfold IsStepName Path.IsStretch
  decide

/-- Cutting a text takes nothing from anywhere else. -/
theorem mem_of_mem_stretches {sep c : Char} {cs s : List Char} (h : s ∈ Text.stretches sep cs)
    (hc : c ∈ s) : c ∈ cs := by
  induction cs generalizing s with
  | nil => simp [Text.stretches] at h; simp [h] at hc
  | cons a cs ih =>
    simp only [Text.stretches] at h
    split at h
    · rcases List.mem_cons.1 h with rfl | h
      · cases hc
      · exact List.mem_cons_of_mem _ (ih h hc)
    · split at h
      · rename_i he; exact absurd he (Text.stretches_ne_nil sep cs)
      · rename_i t ts he
        rcases List.mem_cons.1 h with rfl | h
        · rcases List.mem_cons.1 hc with rfl | hc
          · exact List.mem_cons_self
          · exact List.mem_cons_of_mem _ (ih (by rw [he]; exact List.mem_cons_self) hc)
        · exact List.mem_cons_of_mem _ (ih (by rw [he]; exact List.mem_cons_of_mem _ h) hc)

theorem isStepName_of_mem_names {p : Path} (hp : p.hasNul = false) {name : String}
    (h : name ∈ p.names) : IsStepName name := by
  refine ⟨Path.isStretch_of_mem_names h, fun hc => ?_⟩
  simp only [Path.names, List.mem_map, List.mem_filter] at h
  obtain ⟨cs, ⟨hm, _⟩, rfl⟩ := h
  rw [String.toList_ofList] at hc
  have := mem_of_mem_stretches hm hc
  simp [Path.hasNul, this] at hp

theorem isStepName_of_mem_steps {p : Path} (hp : p.hasNul = false) {name : String}
    (h : name ∈ p.steps) : IsStepName name := by
  unfold Path.steps at h
  split at h
  · rcases List.mem_append.1 h with h | h
    · exact isStepName_of_mem_names hp h
    · rw [List.mem_singleton.1 h]; exact isStepName_dot
  · exact isStepName_of_mem_names hp h

/-! ## Landings -/

namespace Landing

def FitsIn (t : FileTree) : Landing → Prop
  | node p => t.get? p ≠ none
  | vacant dir name =>
    t.get? dir = some .dir ∧ t.get? (dir ++ [name]) = none ∧ isEntryName name = true
  | removed => True

def place? : Landing → Option Place
  | node p => some p
  | vacant dir name => some (dir ++ [name])
  | removed => none

end Landing

def Advance.FitsIn (t : FileTree) (names : List String) : Advance → Prop
  | .landed l => l.FitsIn t
  | .atLink dir target rest =>
    t.get? dir = some .dir ∧ (Node.link target).isStorable = true ∧ ∀ name ∈ rest, name ∈ names
  | .failed _ => True

namespace FileTree

variable {t : FileTree}

theorem isEntryName_of_there {top rel : Place} (h : t.get? (top ++ rel) ≠ none) :
    ∀ name ∈ rel, isEntryName name = true :=
  fun name hm => isEntryName_of_get? h name (List.mem_append_right top hm)

theorem isEntryName_of_below {top rel : Place} {node : Node} (h : t.get? (top ++ rel) = some node) :
    ∀ name ∈ rel, isEntryName name = true := isEntryName_of_there (by rw [h]; simp)

theorem isStorable_of_get? {p : Place} {node : Node} (h : t.get? p = some node) :
    node.isStorable = true := by
  simp only [get?, Branch.get?, Option.map_eq_some_iff] at h
  obtain ⟨b, hb, rfl⟩ := h
  cases t.wellFormed.sub? hb with
  | file | dir => rfl
  | link target ht => exact ht

theorem hasNul_of_isStorable {target : Path} (h : (Node.link target).isStorable = true) :
    target.hasNul = false := by
  simp only [Node.isStorable, Bool.and_eq_true, Bool.not_eq_true'] at h
  exact h.1.2

theorem advance_fitsIn (last : LastLink) {cur : Place} {names : List String}
    (hcur : t.get? cur ≠ none) (hn : ∀ name ∈ names, IsStepName name) :
    (t.advance last cur names).FitsIn t names := by
  induction names generalizing cur with
  | nil => rw [advance_nil]; exact hcur
  | cons name rest ih =>
    have hrest : ∀ n ∈ rest, IsStepName n := fun n h => hn n (List.mem_cons_of_mem _ h)
    -- A walk from a later place sees fewer names.
    have later : ∀ {next : Place}, t.get? next ≠ none →
        (t.advance last next rest).FitsIn t (name :: rest) := by
      intro next hnext
      have := ih hnext hrest
      cases ha : t.advance last next rest with
      | landed l => rw [ha] at this; exact this
      | failed f => trivial
      | atLink dir target r =>
        rw [ha] at this
        exact ⟨this.1, this.2.1, fun n h => List.mem_cons_of_mem _ (this.2.2 n h)⟩
    rw [advance_cons]
    split
    · rename_i hdir
      split
      · exact later hcur
      split
      · refine later ?_
        rcases List.eq_nil_or_concat cur with rfl | ⟨init, l, rfl⟩
        · simp
        · rw [List.concat_eq_append] at hdir
          rw [List.concat_eq_append, List.dropLast_concat, get?_of_child hdir]
          simp
      split
      · trivial
      rename_i hdot hdots hlen
      have hname : isEntryName name = true :=
        isEntryName_iff.2 ⟨hn name List.mem_cons_self, hdot, hdots, Nat.le_of_not_lt hlen⟩
      split
      · split
        · exact ⟨hdir, ‹_›, hname⟩
        · trivial
      · rename_i target hlink
        split
        · show t.get? (cur ++ [name]) ≠ none
          rw [hlink]; simp
        · exact ⟨hdir, isStorable_of_get? hlink, fun n h => List.mem_cons_of_mem _ h⟩
      · rename_i node _ hnode
        exact later (by rw [hnode]; simp)
    · trivial

theorem walk_fitsIn {last : LastLink} {links : Nat} {cur : Place} {names : List String} {l : Landing}
    (hcur : t.get? cur ≠ none) (hn : ∀ name ∈ names, IsStepName name)
    (h : t.walk last links cur names = .ok l) : l.FitsIn t := by
  induction links generalizing cur names with
  | zero =>
    have ha := advance_fitsIn last hcur hn
    unfold walk at h
    split at h
    · rename_i he; cases h; rw [he] at ha; exact ha
    · cases h
    · cases h
  | succ links ih =>
    have ha := advance_fitsIn last hcur hn
    unfold walk at h
    split at h
    · rename_i he; cases h; rw [he] at ha; exact ha
    · cases h
    · rename_i dir target rest he
      rw [he] at ha
      obtain ⟨hdir, htarget, hrest⟩ := ha
      have hnul := hasNul_of_isStorable htarget
      have hbase : t.get? (if target.isAbsolute then [] else dir) ≠ none := by
        split
        · simp
        · rw [hdir]; simp
      simp only at h
      split at h
      · refine ih hbase (fun name hm => ?_) h
        rcases List.mem_append.1 hm with hm | hm
        · exact isStepName_of_mem_names hnul hm
        · exact hn name (hrest name hm)
      · split at h
        · split at h <;> cases h
        · exact ih hbase (fun name hm => isStepName_of_mem_steps hnul hm) h

/-- Whatever exists has directories above it. -/
theorem get?_of_prefix {p q : Place} (h : t.get? p ≠ none) (hq : q <+: p) (hne : q ≠ p) :
    t.get? q = some .dir := by
  obtain ⟨r, rfl⟩ := hq
  cases r with
  | nil => exact absurd (List.append_nil q).symm hne
  | cons name r =>
    have hchild : t.get? (q ++ [name]) ≠ none := by
      intro hn
      exact h (by simpa using get?_append_of_none hn r)
    obtain ⟨node, hnode⟩ := Option.ne_none_iff_exists'.1 hchild
    exact get?_of_child hnode

/-- A walk that comes to a directory goes on from there. -/
theorem advance_append (last : LastLink) {cur names : Place} (hc : Path.Clean names)
    (h : t.get? (cur ++ names) = some .dir) (rest : List String) :
    t.advance last cur (names ++ rest) = t.advance last (cur ++ names) rest := by
  induction names generalizing cur with
  | nil => rw [List.append_nil, List.nil_append]
  | cons name names ih =>
    obtain ⟨hdot, hdots⟩ := hc name List.mem_cons_self
    have hsplit : cur ++ name :: names = cur ++ [name] ++ names := by simp
    rw [hsplit] at h ⊢
    have hchild : t.get? (cur ++ [name]) = some .dir := by
      by_cases hn : names = []
      · rw [hn, List.append_nil] at h
        exact h
      · exact get?_of_prefix (by rw [h]; simp) (List.prefix_append _ _) (by simpa using hn)
    have hlen := (isEntryName_iff.1 (isEntryName_of_below hchild name List.mem_cons_self)).2.2.2
    rw [List.cons_append, advance_cons, if_pos (get?_of_child hchild), if_neg hdot, if_neg hdots,
      if_neg (Nat.not_lt.2 hlen), hchild]
    exact ih (fun n hn => hc n (List.mem_cons_of_mem _ hn)) h

/-- A walk comes to what stands where its names lead, and ends there unless it is a link. -/
theorem advance_to (last : LastLink) {cur names : Place} (hc : Path.Clean names) {node : Node}
    (h : t.get? (cur ++ names) = some node) (hlink : ∀ target, node ≠ .link target) :
    t.advance last cur names = .landed (.node (cur ++ names)) := by
  induction names generalizing cur with
  | nil => rw [advance_nil, List.append_nil]
  | cons name rest ih =>
    obtain ⟨hdot, hdots⟩ := hc name List.mem_cons_self
    have hsplit : cur ++ name :: rest = cur ++ [name] ++ rest := by simp
    rw [hsplit] at h ⊢
    have hchild : ∃ child, t.get? (cur ++ [name]) = some child ∧ ∀ target, child ≠ .link target := by
      by_cases hrest : rest = []
      · rw [hrest, List.append_nil] at h
        exact ⟨node, h, hlink⟩
      · exact ⟨.dir, get?_of_prefix (by rw [h]; simp) (List.prefix_append _ _) (by simpa using hrest),
          by simp⟩
    obtain ⟨child, hget, hother⟩ := hchild
    have hlen := (isEntryName_iff.1 (isEntryName_of_below hget name List.mem_cons_self)).2.2.2
    have onward := ih (fun n hn => hc n (List.mem_cons_of_mem _ hn)) h
    rw [advance_cons, if_pos (get?_of_child hget), if_neg hdot, if_neg hdots,
      if_neg (Nat.not_lt.2 hlen), hget]
    cases child with
    | link target => exact absurd rfl (hother target)
    | dir | file => exact onward

/-- One that keeps the last link ends there on whatever it is. -/
theorem advance_keep_to {cur names : Place} (hc : Path.Clean names) (h : t.get? (cur ++ names) ≠ none) :
    t.advance .keep cur names = .landed (.node (cur ++ names)) := by
  rcases List.eq_nil_or_concat names with rfl | ⟨init, name, hnames⟩
  · rw [advance_nil, List.append_nil]
  · rw [List.concat_eq_append] at hnames
    subst hnames
    rw [← List.append_assoc] at h ⊢
    obtain ⟨node, hnode⟩ := Option.ne_none_iff_exists'.1 h
    obtain ⟨hdot, hdots⟩ := hc name (by simp)
    have hlen := (isEntryName_iff.1 (isEntryName_of_below hnode name List.mem_cons_self)).2.2.2
    rw [advance_append .keep (fun n hn => hc n (by simp [hn])) (get?_of_child hnode), advance_cons,
      if_pos (get?_of_child hnode), if_neg hdot, if_neg hdots, if_neg (Nat.not_lt.2 hlen), hnode]
    cases node with
    | link target => simp
    | dir | file => exact advance_nil _ _ _

/-- A walk through a directory goes by the name of an entry. -/
theorem advance_inward (last : LastLink) {place : Place} (hc : Path.Clean place)
    (hdir : t.get? place = some .dir) {name : String} (hname : isEntryName name = true)
    (rest : List String) : t.advance last [] (place ++ name :: rest) =
      match t.get? (place ++ [name]) with
      | none => if rest = [] then .landed (.vacant place name) else .failed .notFound
      | some (.link target) =>
        if rest = [] && last = .keep then .landed (.node (place ++ [name]))
        else .atLink place target rest
      | some _ => t.advance last (place ++ [name]) rest := by
  obtain ⟨_, hdot, hdots, hshort⟩ := isEntryName_iff.1 hname
  have hstep := advance_cons t last place name rest
  rw [if_pos hdir, if_neg hdot, if_neg hdots, if_neg (Nat.not_lt.2 hshort)] at hstep
  refine ((advance_append last hc hdir _).trans hstep).trans ?_
  cases t.get? (place ++ [name]) with
  | none => rfl
  | some node => cases node <;> rfl

/-- A walk finds nothing behind a place with nothing at it, if it comes that far. -/
theorem advance_of_missing (last : LastLink) {cur names : Place} (hc : Path.Clean names)
    (hshort : ∀ name ∈ names, name.utf8ByteSize ≤ maxNameBytes)
    (hway : ∀ q, q <+: names → t.get? (cur ++ q) = none ∨ t.get? (cur ++ q) = some .dir)
    (h : t.get? (cur ++ names) = none) (hcur : t.get? cur = some .dir) {rest : List String}
    (hr : rest ≠ []) : t.advance last cur (names ++ rest) = .failed .notFound := by
  induction names generalizing cur with
  | nil =>
    rw [List.append_nil, hcur] at h
    cases h
  | cons name names ih =>
    obtain ⟨hdot, hdots⟩ := hc name List.mem_cons_self
    have hlen := hshort name List.mem_cons_self
    have hsplit : ∀ q, cur ++ name :: q = cur ++ [name] ++ q := by simp
    rw [List.cons_append, advance_cons, if_pos hcur, if_neg hdot, if_neg hdots,
      if_neg (Nat.not_lt.2 hlen)]
    rcases hway [name] (by simp) with hnone | hdir
    · rw [hnone]
      simp [hr]
    · rw [hdir]
      refine ih (fun n hn => hc n (List.mem_cons_of_mem _ hn))
        (fun n hn => hshort n (List.mem_cons_of_mem _ hn)) ?_ ?_ hdir
      · intro q hq
        rw [← hsplit]
        exact hway (name :: q) (List.cons_prefix_cons.2 ⟨rfl, hq⟩)
      · rw [← hsplit]
        exact h

/-! ## Trees without links -/

def LinkFree (t : FileTree) : Prop := ∀ p target, t.get? p ≠ some (.link target)

theorem linkFree_empty : empty.LinkFree := by
  intro p target h
  have : empty.get? p = if p = [] then some .dir else none := Branch.get?_ofNode .dir p
  rw [this] at h
  split at h <;> cases h

theorem LinkFree.add (ht : t.LinkFree) (dir : Place) (name : String) {node : Node}
    (hn : ∀ target, node ≠ .link target) : (t.add dir name node).LinkFree := by
  intro p target h
  by_cases ha : t.admits dir name node = true
  · rw [get?_add ha] at h
    split at h
    · exact hn target (Option.some.inj h)
    · exact ht p target h
  · rw [FileTree.add, dif_neg ha] at h
    exact ht p target h

theorem advance_of_linkFree (ht : t.LinkFree) (last : LastLink) (cur : Place)
    (names : List String) :
    (∃ f, t.advance last cur names = .failed f) ∨
      ∃ l, t.advance last cur names = .landed l ∧ l.place? = some (names.foldl Path.foldName cur) := by
  induction names generalizing cur with
  | nil => exact .inr ⟨_, advance_nil t last cur, rfl⟩
  | cons name rest ih =>
    rw [advance_cons]
    split
    · split
      · rename_i hdot
        rw [List.foldl_cons, Path.foldName, if_pos hdot]
        exact ih cur
      split
      · rename_i hdot hdots
        rw [List.foldl_cons, Path.foldName, if_neg hdot, if_pos hdots]
        exact ih cur.dropLast
      rename_i hdot hdots
      rw [List.foldl_cons, Path.foldName, if_neg hdot, if_neg hdots]
      split
      · exact .inl ⟨_, rfl⟩
      split
      · split
        · rename_i hrest
          exact .inr ⟨_, rfl, by rw [hrest]; rfl⟩
        · exact .inl ⟨_, rfl⟩
      · rename_i target hlink
        exact absurd hlink (ht _ target)
      · exact ih (cur ++ [name])
    · exact .inl ⟨_, rfl⟩

/-- Without links a walk lands where the fold of its names is, if it lands at all. -/
theorem place?_of_walk (ht : t.LinkFree) {last : LastLink} {links : Nat} {cur : Place}
    {names : List String} {l : Landing} (h : t.walk last links cur names = .ok l) :
    l.place? = some (names.foldl Path.foldName cur) := by
  unfold walk at h
  rcases advance_of_linkFree ht last cur names with ⟨f, hf⟩ | ⟨l', hl, hp⟩
  · rw [hf] at h; cases h
  · rw [hl] at h; cases h; exact hp

/-- Whatever is there is come to. -/
theorem walk_of_get? (ht : t.LinkFree) (last : LastLink) (links : Nat) {place : Place}
    (hc : Path.Clean place) (h : t.get? place ≠ none) :
    t.walk last links [] place = .ok (.node place) := by
  obtain ⟨node, hnode⟩ := Option.ne_none_iff_exists'.1 h
  have hlink : ∀ target, node ≠ .link target := by
    rintro target rfl
    exact ht place target hnode
  unfold walk
  rw [advance_to last hc (by simpa using hnode) hlink]
  rfl

end FileTree

end Datapack
