import Datapack.Proofs.Making

/-
  Datapack.Proofs.Creating — a file created, with the directories missing above it, by any
  path.

  A path may be relative, to a directory that has been removed even, and go through links.
  What it leads to is a place, and that stays so while directories and files are made and
  the content of files changes (`Disk.Outlines`, `find_of_outlines`). So each directory
  made on the way is at a place that one of the paths above leads to, also when all is done
  (`Disk.Adds`, `adds_makeDirsUp`), and the file is where its own path leads from then on
  (`find_of_ensureFile`, `creates_of_ensureFile`); a file provided without an error is there
  (`isFile_of_provide`).
-/

namespace Datapack

def Path.pathsAbove (p : Path) : List Path :=
  match p.parent? with
  | some dir => dir.ancestors
  | none => []

namespace Disk

variable {d d' d'' : Disk} {p q : Path} {place : Place} {last : LastLink} {names : List String}

/-! ## Look-ups on a disk that has more in it -/

theorem find_iff : d.find p = .ok place ↔ d.land .follow p p.steps = .ok (.node place) := by
  unfold find
  cases d.land .follow p p.steps with
  | error f => simp
  | ok l => cases l <;> simp

/-- Wherever something is on `d`, the like of it is on `d'`. -/
structure Outlines (d d' : Disk) : Prop where
  tree : d.tree.Outlines d'.tree
  workdir : d'.workdir = d.workdir

/-- All that can have changed where something was is the content of the file at `place`. -/
theorem outlines_of_file {bytes : ByteArray} (hworkdir : d'.workdir = d.workdir)
    (hbefore : d.tree.get? place = none ∨ ∃ bytes, d.tree.get? place = some (.file bytes))
    (hfile : d'.tree.get? place = some (.file bytes))
    (hrest : ∀ q node, q ≠ place → d.tree.get? q = some node → d'.tree.get? q = some node) :
    d.Outlines d' := by
  refine ⟨fun q node hq => ?_, hworkdir⟩
  by_cases hplace : q = place
  · subst hplace
    rw [hfile]
    rcases hbefore with hnone | ⟨old, hold⟩
    · rw [hnone] at hq
      cases hq
    · rw [hold] at hq
      cases hq
      rfl
  · rw [hrest q node hplace hq]
    rfl

/-- A look-up lands where its walk leads, so what is told of walks goes for look-ups. -/
theorem land_of_leads {last' : LastLink} {l l' : Landing} (hworkdir : d'.workdir = d.workdir)
    (hleads : ∀ {links cur rest}, d.tree.Leads last links cur rest l →
      d'.tree.Leads last' links cur rest l')
    (hl : d.land last p names = .ok l) (hin : l ≠ .removed) : d'.land last' p names = .ok l' := by
  obtain ⟨hnul, hlen, htext, cur, rest, hbegins, hw⟩ := walk_of_land hl hin
  rw [← hworkdir] at hbegins
  have hthere := hleads (FileTree.leads_of_walk hw)
  exact land_iff_locate.2 ⟨hnul, hlen, (locate_of_begins htext hbegins last').trans hthere.walk⟩

theorem land_of_outlines (h : d.Outlines d') (hl : d.land last p names = .ok (.node place)) :
    d'.land last p names = .ok (.node place) :=
  land_of_leads h.workdir (·.node_of_outlines h.tree) hl (by simp)

theorem land_vacant_of_outlines (h : d.Outlines d') {dir : Place} {name : String} {node : Node}
    (hnode : d'.tree.get? (dir ++ [name]) = some node) (hlink : ∀ target, node ≠ .link target)
    (hl : d.land last p names = .ok (.vacant dir name)) :
    d'.land last p names = .ok (.node (dir ++ [name])) :=
  land_of_leads h.workdir (·.vacant_of_outlines h.tree hnode hlink) hl (by simp)

theorem find_of_outlines (h : d.Outlines d') (hf : d.find p = .ok place) : d'.find p = .ok place :=
  find_iff.2 (land_of_outlines h (find_iff.1 hf))

theorem land_removed (hworkdir : d'.workdir = d.workdir) (hl : d.land last p names = .ok .removed) :
    d'.land last p names = .ok .removed := by
  obtain ⟨hnul, hlen, hlocate⟩ := land_iff_locate.1 hl
  exact land_iff_locate.2 ⟨hnul, hlen, locate_removed.2 (hworkdir ▸ locate_removed.1 hlocate)⟩

/-- Where a directory was, it is found at the same place, or has been removed as before. -/
theorem find_of_isDir (h : d.Outlines d') (hdir : d.isDir p = true) : d'.find p = d.find p := by
  rcases land_of_isDir_cases hdir with ⟨top, hl, _⟩ | hl
  · rw [find_iff.2 hl, find_of_outlines h (find_iff.2 hl)]
  · unfold find
    rw [hl, land_removed h.workdir hl]

/-- A canonical path is its own canonical path. -/
theorem canonical_canonical (h : d.canonical p = .ok q) : d.canonical q = .ok q := by
  have hq := isCanonical_of_canonical h
  obtain ⟨place, rfl, _, hget, _, hlen, _, hlink⟩ := canonical_ok h
  have hentry := FileTree.isEntryName_of_get? hget
  have hnames := Path.names_ofEntries hentry
  have hclean : Path.Clean place := by
    have hc := hq.clean
    rwa [hnames] at hc
  obtain ⟨node, hnode⟩ := Option.ne_none_iff_exists'.1 hget
  have hother : ∀ target, node ≠ .link target := by
    rintro target rfl
    exact hlink target hnode
  have hto : d.tree.advance .follow [] place = .landed (.node place) :=
    FileTree.advance_to .follow hclean hnode hother
  have hlocate : d.locate .follow (.ofPlace place) (Path.ofPlace place).steps = .ok (.node place) := by
    rw [steps_of_isCanonical hq, hnames]
    exact (land_iff_locate.1 ((land_iff hq.isAbsolute).2 ⟨Path.hasNul_ofPlace hentry, hlen, .here hto⟩)).2.2
  unfold canonical
  rw [Path.hasNul_ofPlace hentry, hq.isAbsolute, hlocate]
  simp only [Bool.false_eq_true, if_false, Bool.not_true, Bool.false_and]
  rw [if_neg (Nat.not_lt.2 hlen)]

/-! ## Directories above -/

theorem workdir_mkdir (h : d.mkdir p = .ok d') : d'.workdir = d.workdir := by
  unfold mkdir at h
  split at h
  · cases h
  · cases h
    rfl
  · cases h

/-- A path that may end in a separator leads to a directory if its names do. -/
theorem find_of_land_names (hl : d.land .follow p p.names = .ok (.node place))
    (hdir : d.tree.get? place = some .dir) : d.find p = .ok place := by
  rw [find_iff]
  unfold Path.steps
  split
  · obtain ⟨hnul, hlen, htext, cur, rest, hbegins, hw⟩ := walk_of_land hl (by simp)
    obtain ⟨left, hleft⟩ := (FileTree.leads_of_walk hw).continue (List.cons_ne_nil "." [])
    have hdot : d.tree.advance .follow place ["."] = .landed (.node place) := by
      rw [FileTree.advance_cons, if_pos hdir, if_pos rfl, FileTree.advance_nil]
    refine land_iff_locate.2 ⟨hnul, hlen, ?_⟩
    rw [locate_of_begins htext (hbegins.append ["."]), hleft, (FileTree.Leads.here hdot).walk]
  · exact hl

/-- A directory is where its path leads once it is made. -/
theorem find_of_mkdir (h : d.mkdir p = .ok d') : ∃ q, d.tree.get? q = none ∧
    d.Sets d' q (some .dir) ∧ d.Outlines d' ∧ d'.find p = .ok q := by
  obtain ⟨dir, name, hl, hfree, hset⟩ := mkdir_lands h
  have houtlines : d.Outlines d' := ⟨(hset.within hfree).outlines, workdir_mkdir h⟩
  have hfollow : d.land .follow p p.names = .ok (.vacant dir name) :=
    land_of_leads rfl (·.of_keep_vacant .follow) hl (by simp)
  have hthere := land_vacant_of_outlines houtlines hset.get? (by simp) hfollow
  exact ⟨dir ++ [name], hfree, hset, houtlines, find_of_land_names hthere hset.get?⟩

/-- From `d` to `d'` nothing has changed but that missing directories have been made, at
places that some of the paths `ps` lead to. -/
structure Adds (ps : List Path) (d d' : Disk) : Prop where
  workdir : d'.workdir = d.workdir
  places : ∀ q, d'.tree.get? q = d.tree.get? q ∨
    d.tree.get? q = none ∧ d'.tree.get? q = some .dir ∧ ∃ p ∈ ps, d'.find p = .ok q

variable {ps : List Path}

theorem Adds.mkdir (h : d.Adds ps d') (hp : p ∈ ps) (hm : d'.mkdir p = .ok d'') : d.Adds ps d'' := by
  obtain ⟨made, hfree, hset, houtlines, hfind⟩ := find_of_mkdir hm
  refine ⟨houtlines.workdir.trans h.workdir, fun q => ?_⟩
  by_cases hq : q = made
  · subst hq
    have hnone : d.tree.get? q = none := by
      rcases h.places q with he | ⟨hnone, _⟩
      · rw [← he, hfree]
      · exact hnone
    exact .inr ⟨hnone, hset.get?, p, hp, hfind⟩
  · rw [hset.get?_of_ne hq]
    rcases h.places q with he | ⟨hnone, hdir, r, hr, hrfind⟩
    · exact .inl he
    · exact .inr ⟨hnone, hdir, r, hr, find_of_outlines houtlines hrfind⟩

theorem adds_makeDirsUp (ps : List Path) (d : Disk) : d.Adds ps (makeDirsUp ps d).1 := by
  refine makeDirsUp_keeps (fun _ _ p hp h hm => h.mkdir hp hm) ?_
  exact ⟨rfl, fun _ => .inl rfl⟩

theorem adds_makeParents (p : Path) (d : Disk) :
    d.Adds p.pathsAbove (OutputStack.makeParents d p).1 := by
  unfold OutputStack.makeParents Path.pathsAbove
  cases p.parent? with
  | some dir => exact adds_makeDirsUp dir.ancestors d
  | none => exact adds_makeDirsUp [] d

/-! ## The file -/

/-- From `d` to `d'` the path `p` has come to lead to an empty file at `place`, which was
created or emptied. Nothing else has changed, but that missing directories have been made
at places that the paths above `p` lead to. -/
structure Creates (d : Disk) (p : Path) (place : Place) (d' : Disk) : Prop where
  workdir : d'.workdir = d.workdir
  find : d'.find p = .ok place
  empty : d'.tree.get? place = some (.file .empty)
  before : d.tree.get? place = none ∨ ∃ bytes, d.tree.get? place = some (.file bytes)
  rest : ∀ q, q ≠ place → d'.tree.get? q = d.tree.get? q ∨
    d.tree.get? q = none ∧ d'.tree.get? q = some .dir ∧ ∃ r ∈ p.pathsAbove, d'.find r = .ok q

theorem Creates.outlines (h : d.Creates p place d') : d.Outlines d' := by
  refine outlines_of_file h.workdir h.before h.empty fun q node hplace hq => ?_
  rcases h.rest q hplace with he | ⟨hnone, _⟩
  · rw [he, hq]
  · rw [hnone] at hq
    cases hq

/-- A path that can be opened for writing does not end in a separator, and opening it
leaves the working directory. -/
theorem ensureFile_shape (h : d.ensureFile p = .ok (d', place)) :
    p.steps = p.names ∧ d'.workdir = d.workdir := by
  unfold ensureFile at h
  split at h
  · rename_i hown
    have hend : p.endsInSeparator = false := by simpa using (Bool.and_eq_true_iff.1 hown).2
    refine ⟨by simp [Path.steps, hend], ?_⟩
    split at h
    · cases h
    · cases h
      rfl
    · split at h
      · cases h
      · cases h
        rfl
    · cases h
  · split at h <;> cases h

theorem land_follow_of_write {l : Landing} (h : d.land .write p names = .ok l) (hl : l ≠ .removed) :
    d.land .follow p names = .ok l :=
  land_of_leads rfl (·.follow) h hl

theorem isFile_of_find {bytes : ByteArray} (hf : d.find p = .ok place)
    (hfile : d.tree.get? place = some (.file bytes)) : d.isFile p = true := by
  rw [isFile_iff_node, node, find_iff.1 hf]
  simp only [hfile]
  exact ⟨bytes, rfl⟩

/-- Wherever the path goes, the file that is opened by it is where it leads afterwards. -/
theorem find_of_ensureFile (h : d.ensureFile p = .ok (d', place)) :
    d'.find p = .ok place ∧ ∃ bytes, d'.tree.get? place = some (.file bytes) := by
  obtain ⟨hsteps, hworkdir⟩ := ensureFile_shape h
  rw [find_iff, hsteps]
  rcases ensureFile_lands h with ⟨hl, rfl, hfile⟩ | ⟨dir, name, hl, rfl, hfree, hset⟩
  · exact ⟨land_follow_of_write hl (by simp), hfile⟩
  · have houtlines : d.Outlines d' :=
      outlines_of_file hworkdir (.inl hfree) hset.get? fun _ _ hq hnode =>
        (hset.get?_of_ne hq).trans hnode
    have hfollow := land_follow_of_write hl (by simp)
    exact ⟨land_vacant_of_outlines houtlines hset.get? (by simp) hfollow, _, hset.get?⟩

theorem isFile_of_provide (h : (OutputStack.provide d p).2 = .ok ()) :
    (OutputStack.provide d p).1.isFile p = true := by
  rcases provide_cases d p with ⟨hf, hr⟩ | ⟨_, hr⟩ | ⟨d', place, he, hr⟩
  · rw [hr]
    exact hf
  · rw [hr] at h
    cases h
  · obtain ⟨hfind, _, hfile⟩ := find_of_ensureFile he
    rw [hr]
    exact isFile_of_find hfind hfile

/-- With the directories above made, opening the path and emptying what it leads to creates
the file. -/
theorem creates_of_ensureFile (hadds : d.Adds p.pathsAbove d') (h : d'.ensureFile p = .ok (d'', place)) :
    d.Creates p place (d''.setContent place .empty) := by
  have hworkdir := (ensureFile_shape h).2
  obtain ⟨hfind, bytes, hfile⟩ := find_of_ensureFile h
  have hempty : d''.Sets (d''.setContent place .empty) place (some (.file .empty)) :=
    setContent_sets hfile
  obtain ⟨hset, hbefore⟩ : d'.Sets (d''.setContent place .empty) place (some (.file .empty)) ∧
      (d'.tree.get? place = none ∨ ∃ bytes, d'.tree.get? place = some (.file bytes)) := by
    rcases ensureFile_lands h with ⟨_, rfl, hold⟩ | ⟨_, _, _, rfl, hfree, hmade⟩
    · exact ⟨hempty, .inr hold⟩
    · exact ⟨hmade.trans hempty, .inl hfree⟩
  have hemptied : d''.Outlines (d''.setContent place .empty) :=
    outlines_of_file rfl (.inr ⟨bytes, hfile⟩) hempty.get? fun _ _ hq hnode =>
      (hempty.get?_of_ne hq).trans hnode
  have houtlines : d'.Outlines (d''.setContent place .empty) :=
    outlines_of_file hworkdir hbefore hset.get? fun _ _ hq hnode => (hset.get?_of_ne hq).trans hnode
  refine ⟨hworkdir.trans hadds.workdir, find_of_outlines hemptied hfind, hset.get?, ?_, ?_⟩
  · rcases hadds.places place with he | ⟨hnone, _⟩
    · rwa [← he]
    · exact .inl hnone
  · intro q hq
    rw [hset.get?_of_ne hq]
    rcases hadds.places q with he | ⟨hnone, hdir, r, hr, hrfind⟩
    · exact .inl he
    · exact .inr ⟨hnone, hdir, r, hr, find_of_outlines houtlines hrfind⟩

end Disk

end Datapack
