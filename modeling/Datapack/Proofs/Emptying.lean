import Datapack.Proofs.Depth
import Datapack.Proofs.Inventory
import Datapack.Proofs.Lockstep

/-
  Datapack.Proofs.Emptying — a directory goes with all that is in it.

  Whatever happens on a removal, each of its calls takes one node out of the tree and is
  counted, so what has gone and what is left add up to what there was (`Removal.Balanced`,
  `balanced_removeTree`). That holds of any path, with links along it or not, and however
  much has failed.

  A path that is its own canonical form leads to the place of its names, so the calls for
  what is in the directory work on the entries and on nothing that a link in it leads to
  (`takes_attempt`). Emptying goes by the depth: an entry that is a directory is emptied
  first, and then its own call finds nothing in it (`takes_emptied`, `empties_sweep`). So all that
  lies below goes without failure, nothing else does, and the counts are those of the
  kinds below (`removeTree_complete`).

  Each call needs the disk to take the text of its path. What lies so deep that its path
  is too long stays (`failures_of_overlong`).
-/

namespace Datapack

/-- Below what is no directory there is nothing. -/
theorem FileTree.get?_below_of_ne_dir {t : FileTree} {place rest : Place} {node : Node}
    (h : t.get? place = some node) (hnode : node ≠ .dir) (hrest : rest ≠ []) :
    t.get? (place ++ rest) = none := by
  cases hget : t.get? (place ++ rest) with
  | none => rfl
  | some other =>
    have hdir := get?_of_prefix (by rw [hget]; simp) (List.prefix_append place rest)
      (by simpa using hrest)
    rw [h] at hdir
    exact absurd (Option.some.inj hdir) hnode

namespace Disk

variable {d d' : Disk} {p q : Path}

/-- A canonical path with a node at its names leads there. -/
theorem land_of_get? (hp : p.IsCanonical) (htext : p.text.utf8ByteSize ≤ maxPathBytes)
    (h : d.tree.get? p.names ≠ none) : d.land .keep p p.names = .ok (.node p.names) := by
  exact (land_iff hp.isAbsolute).2 ⟨hasNul_of_get? hp h, htext,
    .here (FileTree.advance_keep_to hp.clean h)⟩

theorem rmdir_of_empty (hp : p.IsCanonical) (hne : p.names ≠ [])
    (htext : p.text.utf8ByteSize ≤ maxPathBytes) (hdir : d.tree.get? p.names = some .dir)
    (hempty : d.tree.names p.names = []) : ∃ d', d.rmdir p = .ok d' := by
  have hland := land_of_get? hp htext (by rw [hdir]; simp)
  obtain ⟨init, name, hnames⟩ := (List.eq_nil_or_concat p.names).resolve_left hne
  obtain ⟨hdot, hdots⟩ := hp.clean name (by simp [hnames])
  have hlast : p.names.getLast? = some name := by simp [hnames]
  unfold rmdir
  rw [hland, hlast]
  simp [FileTree.isDir, hdir, hempty]

theorem unlink_of_get? (hp : p.IsCanonical) (htext : p.text.utf8ByteSize ≤ maxPathBytes) {node : Node}
    (hget : d.tree.get? p.names = some node) (hnode : node ≠ .dir) : ∃ d', d.unlink p = .ok d' := by
  have hland := land_of_get? hp htext (by rw [hget]; simp)
  have hne : p.names ≠ [] := by
    intro hnil
    rw [hnil, FileTree.get?_root] at hget
    exact hnode (Option.some.inj hget).symm
  obtain ⟨init, name, hnames⟩ := (List.eq_nil_or_concat p.names).resolve_left hne
  obtain ⟨hdot, hdots⟩ := hp.clean name (by simp [hnames])
  have hend : p.endsInSeparator = false := by
    rw [hp.eq_ofPlace]
    exact Path.endsInSeparator_ofPlace (fun _ => Path.isStretch_of_mem_names) hne
  have hown : p.endsInOwnName = true := by
    unfold Path.endsInOwnName
    simp [hnames, hdot, hdots]
  have hnot : d.tree.isDir p.names = false := by
    simp [FileTree.isDir, hget, hnode]
  unfold unlink
  rw [hland]
  simp only [hown, hnot, hend, if_true, Bool.false_eq_true, if_false]
  exact ⟨_, rfl⟩

end Disk

/-! ## What has gone and what is left -/

namespace Removal

open Disk

variable {r s : Removal} {t : FileTree}

/-- The files and links that have gone are those that the tree `t` had and the disk has
not, and so are the directories. -/
structure Balanced (t : FileTree) (r : Removal) : Prop where
  files : r.files + r.disk.tree.count (· != .dir) = t.count (· != .dir)
  dirs : r.dirs + r.disk.tree.count (· == .dir) = t.count (· == .dir)

/-- A call that removes takes one node, and that is a directory just if it was held for one. -/
theorem loses_of_call {d d' : Disk} {e : Listed} (he : e.path.isAbsolute = true)
    (h : (if e.isDir then d.rmdir e.path else d.unlink e.path) = .ok d') :
    ∃ place node, place ≠ [] ∧ d.tree.get? place = some node ∧ (node == .dir) = e.isDir ∧
      d.tree.Loses d'.tree place := by
  have below : ∀ {place : Place}, d.Sets d' place none → place ≠ [] := by
    rintro place hset rfl
    have hroot := hset.get?
    rw [FileTree.get?_root] at hroot
    cases hroot
  split at h
  · rename_i hisDir
    obtain ⟨place, _, hget, _, hset⟩ := rmdir_lands he h
    exact ⟨place, .dir, below hset, hget, by simp [hisDir], hset⟩
  · rename_i hisDir
    obtain ⟨place, _, hsome, hnot, hset⟩ := unlink_lands he h
    obtain ⟨node, hget⟩ := Option.ne_none_iff_exists'.1 hsome
    have hnode : (node == .dir) = false := by simpa [FileTree.isDir, hget] using hnot
    exact ⟨place, node, below hset, hget, by simp [hnode, hisDir], hset⟩

theorem balanced_kept (t : FileTree) :
    KeptBySteps (Balanced t) (fun q => q.isAbsolute = true) where
  attempt := by
    intro r e he hr
    have hfiles := hr.files
    have hdirs := hr.dirs
    unfold attempt
    cases hm : (if e.isDir then r.disk.rmdir e.path else r.disk.unlink e.path) with
    | error f => exact ⟨by simpa [note, Removal.files] using hfiles, by simpa [note, Removal.dirs] using hdirs⟩
    | ok d =>
      obtain ⟨place, node, hne, hget, hkind, hloses⟩ := loses_of_call he hm
      have hcountFiles := hloses.count hne hget (· != .dir)
      have hcountDirs := hloses.count hne hget (· == .dir)
      simp only [bne, hkind] at hcountFiles hcountDirs hfiles hdirs
      constructor
      · cases hisDir : e.isDir <;> simp [Removal.files, bne, hisDir] at hcountFiles hfiles ⊢ <;> omega
      · cases hisDir : e.isDir <;> simp [Removal.dirs, hisDir] at hcountDirs hdirs ⊢ <;> omega
  unreadable := by
    intro r q f _ hr
    refine ⟨?_, ?_⟩
    · simpa [Removal.unreadable, note, Removal.files] using hr.files
    · simpa [Removal.unreadable, note, Removal.dirs] using hr.dirs

/-! ## One entry -/

/-- From `r` to `s` just what stood at the places of `Q` has gone, and nothing has failed. -/
structure Takes (Q : Place → Prop) (r s : Removal) : Prop where
  failures : s.failures = r.failures
  gone : ∀ q, Q q → s.disk.tree.get? q = none
  kept : ∀ q, ¬Q q → s.disk.tree.get? q = r.disk.tree.get? q

/-- A node with nothing in it is taken by the call for its kind. -/
theorem takes_attempt {p : Path} (hp : p.IsCanonical) (hne : p.names ≠ [])
    (htext : p.text.utf8ByteSize ≤ maxPathBytes) {node : Node}
    (hget : r.disk.tree.get? p.names = some node) (hempty : r.disk.tree.names p.names = []) :
    Takes (· = p.names) r (r.attempt ⟨p, node == .dir⟩) := by
  have done : ∃ d, (if (node == .dir) = true then r.disk.rmdir p else r.disk.unlink p) = .ok d := by
    by_cases hnode : node = .dir
    · subst hnode
      exact rmdir_of_empty hp hne htext hget hempty
    · rw [if_neg (by simpa using hnode)]
      exact unlink_of_get? hp htext hget hnode
  obtain ⟨d, hd⟩ := done
  have hremoves : Removes r.disk d p := by
    split at hd
    · exact .inl hd
    · exact .inr hd
  -- The path leads to the place of its names, so that is the one that the call has taken.
  obtain ⟨place, hl, hloses⟩ := hremoves.loses hp.isAbsolute
  rw [land_of_get? hp htext (by rw [hget]; simp)] at hl
  cases hl
  unfold attempt
  simp only [hd]
  refine ⟨by split <;> simp [failures], ?_, ?_⟩
  · intro q hq
    rw [hloses q, if_pos hq]
  · intro q hq
    rw [hloses q, if_neg hq]

/-! ## A directory and all that is in it -/

def listed (p : Path) (e : String × Node) : Listed := ⟨p.child e.1, e.2 == .dir⟩

/-- The list of a directory is of all its entries, each once. -/
theorem listing_of_land {d : Disk} {p : Path} {place : Place}
    (hland : d.land .follow p p.steps = .ok (.node place)) (hdir : d.tree.get? place = some .dir) :
    ∃ es : List (String × Node), listing d p = .ok (es.map (listed p)) ∧ (es.map Prod.fst).Nodup ∧
      ∀ e, e ∈ es ↔ d.tree.get? (place ++ [e.1]) = some e.2 := by
  let isDir (e : String × Node) : Bool := e.2 == .dir
  let es := (d.tree.entries place).filter (!isDir ·) ++ (d.tree.entries place).filter isDir
  have hperm : es.Perm (d.tree.entries place) :=
    List.perm_append_comm.trans (List.filter_append_perm isDir _)
  refine ⟨es, ?_, ?_, ?_⟩
  · unfold listing
    rw [list_of_land hland hdir]
    simp only [es, List.map_append, List.filter_map]
    rfl
  · exact ((hperm.map Prod.fst).nodup_iff).2 (d.tree.nodup_names place)
  · rintro ⟨name, node⟩
    rw [hperm.mem_iff, FileTree.mem_entries]

theorem listing_of_isDir {d : Disk} {p : Path} (hp : p.IsCanonical)
    (htext : p.text.utf8ByteSize ≤ maxPathBytes) (hdir : d.tree.get? p.names = some .dir) :
    ∃ es : List (String × Node), listing d p = .ok (es.map (listed p)) ∧ (es.map Prod.fst).Nodup ∧
      ∀ e, e ∈ es ↔ d.tree.get? (p.names ++ [e.1]) = some e.2 :=
  have hnul := hasNul_of_get? hp (by rw [hdir]; simp)
  listing_of_land (land_of_isDir hp.isAbsolute hnul htext hp.clean hdir .follow (steps_cases p)) hdir

def Below (place q : Place) : Prop := place <+: q ∧ q ≠ place

def Under (place : Place) (names : List String) (q : Place) : Prop :=
  ∃ name ∈ names, place ++ [name] <+: q

theorem Takes.trans {P Q S : Place → Prop} {r' : Removal} (h : Takes P r s) (h' : Takes Q s r')
    (hS : ∀ q, S q ↔ P q ∨ Q q) : Takes S r r' := by
  refine ⟨h'.failures.trans h.failures, ?_, ?_⟩
  · intro q hq
    by_cases hQ : Q q
    · exact h'.gone q hQ
    · rw [h'.kept q hQ]
      exact h.gone q (((hS q).1 hq).resolve_right hQ)
  · intro q hq
    obtain ⟨hP, hQ⟩ := not_or.1 (mt (hS q).2 hq)
    rw [h'.kept q hQ, h.kept q hP]

/-- A directory that has been emptied goes by its own call. -/
theorem takes_emptied {p : Path} (hp : p.IsCanonical) (hne : p.names ≠ [])
    (htext : p.text.utf8ByteSize ≤ maxPathBytes) (hdir : r.disk.tree.get? p.names = some .dir)
    (h : Takes (Below p.names) r s) : Takes (p.names <+: ·) r (s.attempt ⟨p, true⟩) := by
  have hstill : s.disk.tree.get? p.names = some .dir := by
    rw [h.kept _ (fun hb => hb.2 rfl), hdir]
  have hempty : s.disk.tree.names p.names = [] := by
    refine List.eq_nil_iff_forall_not_mem.2 fun name hm => ?_
    rw [FileTree.mem_names, h.gone _ ⟨List.prefix_append _ _, by simp⟩] at hm
    cases hm
  refine h.trans (takes_attempt hp hne htext hstill hempty) fun q => ?_
  constructor
  · intro hq
    by_cases he : q = p.names
    · exact .inr he
    · exact .inl ⟨hq, he⟩
  · rintro (⟨hq, _⟩ | rfl)
    · exact hq
    · exact List.prefix_refl _

theorem takes_nothing (r : Removal) (place : Place) : Takes (Under place []) r r := by
  refine ⟨rfl, ?_, fun _ _ => rfl⟩
  rintro q ⟨name, hm, _⟩
  cases hm

/-- An entry goes with all that is in it, if `inner` empties it in case it is a directory. -/
theorem takes_entry {inner : Bool → Path → Removal → Removal} {p : Path} (hp : p.IsCanonical)
    {e : String × Node} (htext : (p.child e.1).text.utf8ByteSize ≤ maxPathBytes)
    (hget : r.disk.tree.get? (p.names ++ [e.1]) = some e.2)
    (hinner : e.2 = .dir → Takes (Below (p.names ++ [e.1])) r (inner false (p.child e.1) r)) :
    ∃ s, visit false (some inner) (r, none) (listed p e) = (s, none) ∧
      Takes (p.names ++ [e.1] <+: ·) r s := by
  obtain ⟨name, node⟩ := e
  have hname := FileTree.isEntryName_of_below hget name List.mem_cons_self
  have hchild := hp.child hname
  have hnames : (p.child name).names = p.names ++ [name] := Path.names_entry hname
  have hne : (p.child name).names ≠ [] := by simp [hnames]
  simp only at hget hinner
  by_cases hnode : node = .dir
  · subst hnode
    refine ⟨(inner false (p.child name) r).attempt ⟨p.child name, true⟩, by simp [visit, listed], ?_⟩
    rw [← hnames] at hget hinner ⊢
    exact takes_emptied hchild hne htext hget (hinner rfl)
  · have hnothing : ∀ rest, rest ≠ [] → r.disk.tree.get? (p.names ++ [name] ++ rest) = none :=
      fun rest hrest => FileTree.get?_below_of_ne_dir hget hnode hrest
    have hempty : r.disk.tree.names (p.child name).names = [] := by
      rw [hnames]
      refine List.eq_nil_iff_forall_not_mem.2 fun other hm => ?_
      rw [FileTree.mem_names, hnothing [other] (by simp)] at hm
      cases hm
    rw [← hnames] at hget
    have htaken := takes_attempt hchild hne htext hget hempty
    refine ⟨_, ?_, htaken.failures, ?_, ?_⟩
    · simp [visit, listed, hnode]
    · rintro q ⟨rest, rfl⟩
      by_cases hrest : rest = []
      · exact htaken.gone _ (by simp [hrest, hnames])
      · have hother : p.names ++ [name] ++ rest ≠ (p.child name).names := by simp [hnames, hrest]
        rw [htaken.kept _ hother, hnothing rest hrest]
    · intro q hq
      refine htaken.kept q ?_
      rintro rfl
      exact hq (by simp [hnames])

theorem eq_of_under {place q : Place} {name other : String} (h : place ++ [name] <+: q)
    (h' : place ++ [other] <+: q) : name = other := by
  obtain ⟨rest, rfl⟩ := h
  obtain ⟨rest', he⟩ := h'
  simp only [List.append_assoc, List.append_cancel_left_eq, List.singleton_append] at he
  exact (List.cons.inj he).1.symm

/-- The entries of a list go one after another; what is done for one leaves the others as
they were. -/
theorem takes_entries {inner : Bool → Path → Removal → Removal} {p : Path} (hp : p.IsCanonical)
    {es : List (String × Node)} (hnodup : (es.map Prod.fst).Nodup)
    (htext : ∀ e ∈ es, (p.child e.1).text.utf8ByteSize ≤ maxPathBytes) {r : Removal}
    (hget : ∀ e ∈ es, r.disk.tree.get? (p.names ++ [e.1]) = some e.2)
    (hinner : ∀ e ∈ es, e.2 = .dir → ∀ s : Removal,
      (∀ q, p.names ++ [e.1] <+: q → s.disk.tree.get? q = r.disk.tree.get? q) →
      Takes (Below (p.names ++ [e.1])) s (inner false (p.child e.1) s)) :
    ∃ s, (es.map (listed p)).foldl (visit false (some inner)) (r, none) = (s, none) ∧
      Takes (Under p.names (es.map Prod.fst)) r s := by
  induction es generalizing r with
  | nil => exact ⟨r, rfl, takes_nothing r p.names⟩
  | cons e es ih =>
    obtain ⟨hfresh, hrest⟩ := List.nodup_cons.1 hnodup
    obtain ⟨s, hs, htaken⟩ := takes_entry hp (htext e List.mem_cons_self) (hget e List.mem_cons_self)
      fun hdir => hinner e List.mem_cons_self hdir r fun _ _ => rfl
    have hsame : ∀ x ∈ es, ∀ q, p.names ++ [x.1] <+: q →
        s.disk.tree.get? q = r.disk.tree.get? q := by
      intro x hx q hq
      refine htaken.kept q fun hunder => hfresh ?_
      rw [eq_of_under hunder hq]
      exact List.mem_map.2 ⟨x, hx, rfl⟩
    obtain ⟨s', hs', htaken'⟩ := ih hrest (fun x hx => htext x (List.mem_cons_of_mem _ hx))
      (r := s)
      (fun x hx => by
        rw [hsame x hx _ (List.prefix_refl _)]
        exact hget x (List.mem_cons_of_mem _ hx))
      (fun x hx hdir u hu => hinner x (List.mem_cons_of_mem _ hx) hdir u fun q hq => by
        rw [hu q hq, hsame x hx q hq])
    refine ⟨s', ?_, htaken.trans htaken' ?_⟩
    · rw [List.map_cons, List.foldl_cons, hs, hs']
    · intro q
      simp only [Under, List.map_cons, List.mem_cons, exists_eq_or_imp]

/-- Nothing is below a directory but what stands at or below its entries. -/
theorem Takes.below {place : Place} {names : List String} (h : Takes (Under place names) r s)
    (hall : ∀ name, r.disk.tree.get? (place ++ [name]) ≠ none → name ∈ names) :
    Takes (Below place) r s := by
  refine ⟨h.failures, ?_, ?_⟩
  · rintro q ⟨⟨rest, rfl⟩, hne⟩
    obtain ⟨name, rest, rfl⟩ := List.exists_cons_of_ne_nil (l := rest) (by simpa using hne)
    have hsplit : place ++ name :: rest = place ++ [name] ++ rest := by simp
    by_cases hm : name ∈ names
    · exact h.gone _ ⟨name, hm, rest, hsplit.symm⟩
    · have hnone : r.disk.tree.get? (place ++ [name]) = none := by
        simpa using mt (hall name) hm
      have hout : ¬Under place names (place ++ name :: rest) := by
        rintro ⟨other, ho, hpre⟩
        have heq : other = name := eq_of_under hpre ⟨rest, hsplit.symm⟩
        exact hm (heq ▸ ho)
      rw [h.kept _ hout, hsplit]
      exact FileTree.get?_append_of_none hnone rest
  · intro q hq
    refine h.kept q ?_
    rintro ⟨name, _, rest, rfl⟩
    exact hq ⟨⟨name :: rest, by simp⟩, by simp⟩

/-- The disk takes the path of what stands at the place, and of all below it. -/
def Nameable (t : FileTree) (place : Place) : Prop :=
  ∀ rel, t.get? (place ++ rel) ≠ none → (Path.ofPlace (place ++ rel)).text.utf8ByteSize ≤ maxPathBytes

theorem Nameable.text {p : Path} (h : Nameable t p.names) (hp : p.IsCanonical) {node : Node}
    (hget : t.get? p.names = some node) : p.text.utf8ByteSize ≤ maxPathBytes := by
  have htext := h [] (by simp [hget])
  rwa [List.append_nil, ← hp.eq_ofPlace] at htext

theorem Nameable.child {place : Place} {name : String} (h : Nameable t place) :
    Nameable t (place ++ [name]) := by
  intro rel hrel
  rw [List.append_assoc] at hrel ⊢
  exact h ([name] ++ rel) hrel

/-- A directory that stands at the names of its path is emptied. -/
theorem empties_sweep {fuel : Nat} {p : Path} (hp : p.IsCanonical) {r : Removal}
    (hdir : r.disk.tree.get? p.names = some .dir) (hshallow : Shallow r.disk.tree p.names fuel)
    (hnameable : Nameable r.disk.tree p.names) (flush : Bool) :
    Takes (Below p.names) r (sweep fuel false flush p (listing r.disk p) r) := by
  induction fuel generalizing p r flush with
  | zero =>
    obtain ⟨es, hl, _, hes⟩ := listing_of_isDir hp (hnameable.text hp hdir) hdir
    -- With no names to go on there are no entries.
    have hempty : es = [] := by
      refine List.eq_nil_iff_forall_not_mem.2 fun e he => ?_
      have hlen := hshallow [e.1] (by rw [(hes e).1 he]; simp)
      simp at hlen
    subst hempty
    rw [hl]
    refine (takes_nothing r p.names).below fun name hname => ?_
    obtain ⟨node, hnode⟩ := Option.ne_none_iff_exists'.1 hname
    exact absurd ((hes (name, node)).2 hnode) List.not_mem_nil
  | succ fuel ih =>
    obtain ⟨es, hl, hnodup, hes⟩ := listing_of_isDir hp (hnameable.text hp hdir) hdir
    have hentry : ∀ e ∈ es, isEntryName e.1 = true := fun e he =>
      FileTree.isEntryName_of_below ((hes e).1 he) e.1 List.mem_cons_self
    have hchild : ∀ e ∈ es, p.child e.1 = .ofPlace (p.names ++ [e.1]) := fun e he =>
      hp.child_eq (isStretch_of_isEntryName (hentry e he))
    let inner (late : Bool) (q : Path) (u : Removal) : Removal :=
      sweep fuel late true q (listing u.disk q) u
    have hinner : ∀ e ∈ es, e.2 = .dir → ∀ u : Removal,
        (∀ q, p.names ++ [e.1] <+: q → u.disk.tree.get? q = r.disk.tree.get? q) →
        Takes (Below (p.names ++ [e.1])) u (inner false (p.child e.1) u) := by
      intro e he hisDir u hsame
      have hnames : (p.child e.1).names = p.names ++ [e.1] := Path.names_entry (hentry e he)
      have hget := (hes e).1 he
      have hthere : r.disk.tree.get? (p.names ++ [e.1]) ≠ none := by simp [hget]
      obtain ⟨m, hm, hdeep⟩ := hshallow.child hthere
      obtain rfl : fuel = m := by omega
      have hrel : ∀ rel, u.disk.tree.get? (p.names ++ [e.1] ++ rel) =
          r.disk.tree.get? (p.names ++ [e.1] ++ rel) := fun rel => hsame _ (List.prefix_append _ _)
      rw [← hnames] at hdeep hrel ⊢
      refine ih (hp.child (hentry e he)) ?_ ?_ ?_ true
      · rw [← List.append_nil (p.child e.1).names, hrel, List.append_nil, hnames, hget, hisDir]
      · intro rel hne
        rw [hrel] at hne
        exact hdeep rel hne
      · intro rel hne
        rw [hrel, hnames] at hne
        rw [hnames]
        exact hnameable.child rel hne
    obtain ⟨s, hs, htaken⟩ := takes_entries hp hnodup
      (fun e he => by
        rw [hchild e he]
        exact hnameable [e.1] (by rw [(hes e).1 he]; simp))
      (fun e he => (hes e).1 he) hinner
    rw [hl, sweep, visitAll_of_not_late]
    rw [show (es.map (listed p)).foldl _ (r, none) = (s, none) from hs]
    refine htaken.below fun name hname => ?_
    obtain ⟨node, hnode⟩ := Option.ne_none_iff_exists'.1 hname
    exact List.mem_map.2 ⟨(name, node), (hes (name, node)).2 hnode, rfl⟩

end Removal

namespace Disk

open Removal

variable {d : Disk} {p : Path}

theorem balanced_removeTree (hp : p.isAbsolute = true) (self : Bool) :
    (d.removeTree p self).Balanced d.tree := by
  have start : Balanced d.tree ⟨d, []⟩ := ⟨by simp [files], by simp [dirs]⟩
  exact removeTree_keeps_steps (Q := fun q => q.isAbsolute = true)
    (fun _ _ hq hname => isAbsolute_child_of_isEntryName hq hname) (balanced_kept d.tree) hp self start

/-- All that is in the directory goes, and nothing else but the directory, if that is
wanted. -/
theorem takes_removeTree (hp : p.IsCanonical) (hne : p.names ≠ [])
    (hdir : d.tree.get? p.names = some .dir) (hnameable : Nameable d.tree p.names) (self : Bool) :
    Takes (fun q => p.names <+: q ∧ (self = true ∨ q ≠ p.names)) ⟨d, []⟩ (d.removeTree p self) := by
  have htext := hnameable.text hp hdir
  have hemptied := empties_sweep (r := ⟨d, []⟩) hp hdir (shallow_height d.tree p.names) hnameable true
  rw [removeTree_of_isDir hp htext hdir]
  simp only
  generalize sweep d.tree.height false true p (listing d p) ⟨d, []⟩ = r at hemptied
  cases self with
  | false =>
    exact ⟨hemptied.failures, by simpa [Below] using hemptied.gone, by simpa [Below] using hemptied.kept⟩
  | true =>
    have htaken := takes_emptied hp hne htext hdir hemptied
    exact ⟨htaken.failures, by simpa using htaken.gone, by simpa using htaken.kept⟩

/-- A directory other than the root goes without failure, and with it just what lies in
it, wherever links there may lead; without `self` it stays, empty. Files and links that
lay in it are counted, and the directories among them, and itself if it went. -/
theorem removeTree_complete (hself : d.canonical p = .ok p) (hdir : d.isDir p = true)
    (hroot : p ≠ ⟨"/"⟩)
    (hfits : ∀ x ∈ d.tree.below p.names,
      (Path.ofPlace (p.names ++ x.1)).text.utf8ByteSize ≤ maxPathBytes) (self : Bool) :
    let r := d.removeTree p self
    r.failures = [] ∧
    (if self then r.disk.node .keep p = .error .notFound
      else r.disk.isDir p = true ∧ r.disk.list p = .ok []) ∧
    (∀ q, r.disk.tree.get? q =
      if p.names <+: q ∧ (self = true ∨ q ≠ p.names) then none else d.tree.get? q) ∧
    r.files = (d.tree.below p.names).countP (·.2 != .dir) ∧
    r.dirs = (d.tree.below p.names).countP (·.2 == .dir) + if self then 1 else 0 := by
  intro r
  have hp := isCanonical_of_canonical hself
  have hget := (isDir_of_canonical hdir hself).2.2
  have hne : p.names ≠ [] := by
    intro hnil
    rw [hp.eq_ofPlace, hnil] at hroot
    exact hroot rfl
  have hnameable : Nameable d.tree p.names := by
    intro rel hrel
    by_cases hnil : rel = []
    · obtain ⟨_, _, _, _, _, hlen, _⟩ := canonical_ok hself
      rwa [hnil, List.append_nil, ← hp.eq_ofPlace]
    · obtain ⟨node, hnode⟩ := Option.ne_none_iff_exists'.1 hrel
      exact hfits (rel, node) (FileTree.mem_below.2 ⟨hnil, hnode⟩)
  have htaken := takes_removeTree hp hne hget hnameable self
  have hclean : r.failures = [] := htaken.failures
  have hbalanced : r.Balanced d.tree := balanced_removeTree hp.isAbsolute self
  have htree : ∀ q, r.disk.tree.get? q =
      if p.names <+: q ∧ (self = true ∨ q ≠ p.names) then none else d.tree.get? q := by
    intro q
    split
    · rename_i hq
      exact htaken.gone q hq
    · rename_i hq
      exact htaken.kept q hq
  -- What is missing from the tree is what lay below, and so that is what has been counted.
  have hcount : ∀ kind : Node → Bool, d.tree.count kind = r.disk.tree.count kind +
      (d.tree.below p.names).countP (fun x => kind x.2) + if self && kind .dir then 1 else 0 := by
    intro kind
    cases self with
    | true => simpa using FileTree.count_of_removed hne hget (by simpa using htree) kind
    | false => simpa using FileTree.count_of_emptied kind (by simpa using htree)
  refine ⟨hclean, ?_, htree, ?_, ?_⟩
  · cases self with
    | true => exact gone_of_removeTree hp hclean
    | false => exact emptied_of_removeTree hp hdir hself hclean
  · have hfiles := hbalanced.files
    rw [hcount (· != .dir)] at hfiles
    simp at hfiles
    omega
  · have hdirs := hbalanced.dirs
    rw [hcount (· == .dir)] at hdirs
    simp at hdirs
    omega

/-- Of a directory with a subdirectory, a file in that, and a link to another directory all
goes, and what is in the other directory stays. -/
theorem removeTree_complete_link :
    let t := (((((FileTree.empty.add [] "p" .dir).add ["p"] "a" .dir).add ["p", "a"] "f"
      (.file .empty)).add ["p"] "l" (.link ⟨"../t"⟩)).add [] "t" .dir).add ["t"] "x" (.file .empty)
    let d : Disk := ⟨t, ⟨[], 0⟩⟩
    let p := Path.ofPlace ["p"]
    let r := d.removeTree p true
    d.canonical p = .ok p ∧ d.isDir p = true ∧ r.failures = [] ∧
      r.disk.tree.get? ["p"] = none ∧ r.disk.tree.get? ["t", "x"] = some (.file .empty) ∧
      r.files = 2 ∧ r.dirs = 2 := by
  intro t d p r
  have hp : p.IsCanonical := Path.isCanonical_ofPlace (by decide)
  obtain ⟨hself, hdir⟩ := canonical_self (d := d) hp (by decide +kernel) (by decide +kernel)
  have hfits : ∀ x ∈ d.tree.below p.names,
      (Path.ofPlace (p.names ++ x.1)).text.utf8ByteSize ≤ maxPathBytes := by decide +kernel
  have hnames : p.names = ["p"] := by decide +kernel
  obtain ⟨hclean, _, htree, hfiles, hdirs⟩ :=
    removeTree_complete hself hdir (by decide +kernel) hfits true
  rw [hnames] at htree hfiles hdirs
  refine ⟨hself, hdir, hclean, ?_, ?_, ?_, ?_⟩
  · exact (htree ["p"]).trans (by decide +kernel)
  · exact (htree ["t", "x"]).trans (by decide +kernel)
  · exact hfiles.trans (by decide +kernel)
  · exact hdirs.trans (by decide +kernel)

/-! ## What lies too deep -/

/-- No call reaches a place whose path is too long, where no link leads around it. -/
theorem overlong_kept (hd : d.tree.LinkFree) (hp : p.IsCanonical) {place : Place}
    (hget : d.tree.get? place ≠ none)
    (hlong : maxPathBytes < (Path.ofPlace place).text.utf8ByteSize) (self : Bool) :
    (d.removeTree p self).disk.tree.LinkFree ∧
      (d.removeTree p self).disk.tree.get? place ≠ none := by
  have kept : ∀ e e' q, Path.IsCanonical q → e.tree.LinkFree ∧ e.tree.get? place ≠ none →
      Removes e e' q → e'.tree.LinkFree ∧ e'.tree.get? place ≠ none := by
    intro e e' q hq he hremoves
    obtain ⟨place', hl, hloses⟩ := hremoves.loses hq.isAbsolute
    have hother : place ≠ place' := by
      rintro rfl
      have hplace := eq_fold_of_land_names he.1 hq.isAbsolute hl
      rw [hq.fold_names] at hplace
      have htext := (land_ok hq.isAbsolute hl).2.1
      rw [hq.eq_ofPlace, ← hplace] at htext
      omega
    refine ⟨fun q target hq => he.1 q target (hloses.within q _ hq), ?_⟩
    rw [hloses place, if_neg hother]
    exact he.2
  exact removeTree_keeps (fun _ _ hq hname => hq.child hname) kept hp self ⟨hd, hget⟩

/-- So a directory that holds such a place does not go without failure. -/
theorem failures_of_overlong (hd : d.tree.LinkFree) (hp : p.IsCanonical) {place : Place}
    (hplace : p.names <+: place) (hget : d.tree.get? place ≠ none)
    (hlong : maxPathBytes < (Path.ofPlace place).text.utf8ByteSize) :
    (d.removeTree p true).failures ≠ [] := by
  intro hclean
  have hgone := gone_of_removeTree hp hclean
  obtain ⟨hlinks, hstill⟩ := overlong_kept hd hp hget hlong true
  obtain ⟨_, _, hmiss⟩ := (gone_iff hp).1 hgone
  have hthere : (d.removeTree p true).disk.tree.get? p.names ≠ none := by
    obtain ⟨rest, rfl⟩ := hplace
    exact fun hnone => hstill (FileTree.get?_append_of_none hnone rest)
  have hwalk := FileTree.walk_of_get? hlinks .keep maxLinks hp.clean hthere
  rcases hmiss with he | ⟨dir, name, he⟩
  · rw [hwalk] at he
    cases he
  · rw [hwalk] at he
    cases he

/-- Of directories in each other the first is not removed, if the last has too long a path. -/
theorem removeTree_chain {name : String} (hname : isEntryName name = true) {k : Nat}
    (hlong : maxPathBytes < (k + 1) * (name.utf8ByteSize + 1)) (w : Workdir) :
    let d : Disk := ⟨FileTree.chain name (k + 1), w⟩
    let p := Path.ofPlace [name]
    d.canonical p = .ok p ∧ d.isDir p = true ∧ p ≠ ⟨"/"⟩ ∧ (d.removeTree p true).failures ≠ [] := by
  intro d p
  have hp : p.IsCanonical := Path.isCanonical_ofPlace (by simpa using hname)
  have hnames : p.names = [name] := Path.names_ofEntries (by simpa using hname)
  have htext : p.text.utf8ByteSize ≤ maxPathBytes := by
    have hsize : p.text.utf8ByteSize = _ := Path.size_ofPlace_replicate name 0
    have hshort := (isEntryName_iff.1 hname).2.2.2
    unfold maxNameBytes at hshort
    unfold maxPathBytes
    omega
  have hdir : d.tree.get? p.names = some .dir := by
    rw [hnames]
    exact (FileTree.get?_chain hname (k + 1) [name]).trans (by simp)
  obtain ⟨hself, hisDir⟩ := canonical_self hp htext hdir
  refine ⟨hself, hisDir, ?_, ?_⟩
  · intro hroot
    have hnil : (⟨"/"⟩ : Path).names = [] := by decide +kernel
    rw [hroot, hnil] at hnames
    cases hnames
  · have hdeep : d.tree.get? (List.replicate (k + 1) name) ≠ none := by
      have hget := FileTree.get?_chain hname (k + 1) (List.replicate (k + 1) name)
      rw [if_pos ⟨by simp, by simp⟩] at hget
      exact fun hnone => by simp [d, hget] at hnone
    refine failures_of_overlong (FileTree.linkFree_chain hname (k + 1)) hp ?_ hdeep ?_
    · rw [hnames, List.replicate_succ]
      exact ⟨_, rfl⟩
    · rw [Path.size_ofPlace_replicate]
      exact hlong

/-- So it is with seventeen of them that have names of 240 bytes. -/
theorem removeTree_chain_fails :
    let d : Disk := ⟨FileTree.chain (longName 240) 17, ⟨[], 0⟩⟩
    let p := Path.ofPlace [longName 240]
    d.canonical p = .ok p ∧ d.isDir p = true ∧ p ≠ ⟨"/"⟩ ∧ (d.removeTree p true).failures ≠ [] := by
  have hlong : maxPathBytes < (16 + 1) * ((longName 240).utf8ByteSize + 1) := by
    rw [size_longName]
    decide
  exact removeTree_chain (isEntryName_longName (by decide) (by decide)) hlong ⟨[], 0⟩

end Disk

end Datapack
