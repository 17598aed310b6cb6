import Datapack.Proofs.Boundary
import Datapack.Proofs.Laying

/-
  Datapack.Proofs.Opening — making directories and opening files only ever add.

  Making a directory with what is missing above it is many calls, and opening a file goes
  on from whatever these have left behind. Each call that succeeds makes one node at a free
  place, and one that fails makes none. So whether it all succeeds or not, what stood
  anywhere stands there still, and what is new is a directory or, where a file was opened,
  one empty file (`Disk.Grows`, `makeDirs_grows`, `provide_grows`).

  After a success the path leads to what was asked for, through links or not, and asking
  again changes nothing (`makeDirs_again`, `push_again`). After a failure the stack of open
  files is the one before (`openFile_of_error`).
-/

namespace Datapack

namespace Disk

variable {d d' d'' : Disk} {p : Path} {place : Place} {new : Place → Node → Prop}

/-- From `d` to `d'` all that was there has stayed as it was, and what is new at a place is
as `new` says. -/
structure Grows (new : Place → Node → Prop) (d d' : Disk) : Prop where
  workdir : d'.workdir = d.workdir
  places : ∀ q, d'.tree.get? q = d.tree.get? q ∨
    d.tree.get? q = none ∧ ∃ node, d'.tree.get? q = some node ∧ new q node

namespace Grows

theorem refl (new : Place → Node → Prop) (d : Disk) : d.Grows new d := ⟨rfl, fun _ => .inl rfl⟩

theorem mono {new' : Place → Node → Prop} (h : d.Grows new d')
    (hnew : ∀ q node, new q node → new' q node) : d.Grows new' d' := by
  refine ⟨h.workdir, fun q => (h.places q).imp_right ?_⟩
  rintro ⟨hnone, node, hnode, hq⟩
  exact ⟨hnone, node, hnode, hnew q node hq⟩

theorem trans (h : d.Grows new d') (h' : d'.Grows new d'') : d.Grows new d'' := by
  refine ⟨h'.workdir.trans h.workdir, fun q => ?_⟩
  rcases h'.places q with he | ⟨hnone, node, hnode, hq⟩
  · rw [he]
    exact h.places q
  · rcases h.places q with he | ⟨-, old, hold, -⟩
    · exact .inr ⟨he ▸ hnone, node, hnode, hq⟩
    · rw [hold] at hnone
      cases hnone

end Grows

theorem Adds.grows {ps : List Path} (h : d.Adds ps d') : d.Grows (fun _ node => node = .dir) d' := by
  refine ⟨h.workdir, fun q => (h.places q).imp_right ?_⟩
  rintro ⟨hnone, hdir, -⟩
  exact ⟨hnone, .dir, hdir, rfl⟩

/-! ## Directories -/

theorem makeDirs_grows (d : Disk) (p : Path) :
    d.Grows (fun _ node => node = .dir) (d.makeDirs p).1 := (adds_makeDirsUp p.ancestors d).grows

/-- A directory that has been made is there, and need not be made again. -/
theorem makeDirs_again (h : (d.makeDirs p).2 = .ok ()) (htext : p.text ≠ "") :
    (d.makeDirs p).1.isDir p = true ∧
      (d.makeDirs p).1.makeDirs p = ((d.makeDirs p).1, .ok ()) := by
  have hdir := isDir_of_makeDirs_ok htext h
  exact ⟨hdir, makeDirs_of_isDir hdir⟩

/-! ## Files -/

theorem ensureFile_grows (h : d.ensureFile p = .ok (d', place)) :
    d.Grows (fun q node => q = place ∧ node = .file .empty) d' := by
  rcases ensureFile_lands h with ⟨-, rfl, -⟩ | ⟨_, _, -, rfl, hfree, hset⟩
  · exact .refl _ _
  · refine ⟨(ensureFile_shape h).2, fun q => ?_⟩
    rw [hset q]
    split
    · rename_i hq
      exact .inr ⟨hq ▸ hfree, .file .empty, rfl, hq, rfl⟩
    · exact .inl rfl

end Disk

namespace OutputStack

variable {d : Disk} {p : Path} {files files' : OutputStack}

abbrev DirOrEmpty (file : Place) (q : Place) (node : Node) : Prop :=
  node = .dir ∨ q = file ∧ node = .file .empty

theorem push_eq (files : OutputStack) (d : Disk) (p : Path) :
    files.push d p = ((provide d p).1, (provide d p).2.map fun _ => p :: files) := by
  unfold push
  obtain ⟨d', told⟩ := provide d p
  cases told <;> rfl

theorem provide_grows (d : Disk) (p : Path) :
    ∃ file, d.Grows (DirOrEmpty file) (provide d p).1 := by
  have hparents (file : Place) : d.Grows (DirOrEmpty file) (makeParents d p).1 :=
    (Disk.adds_makeParents p d).grows.mono fun _ _ => .inl
  rcases Disk.provide_cases d p with ⟨-, h⟩ | ⟨f, h⟩ | ⟨d', place, he, h⟩
  · exact ⟨[], h ▸ .refl _ d⟩
  · exact ⟨[], h ▸ hparents []⟩
  · rw [h]
    exact ⟨place, (hparents place).trans ((Disk.ensureFile_grows he).mono fun _ _ => .inr)⟩

/-- What has been opened is a file and on top of the stack; opening it again finds it. -/
theorem push_again (h : (files.push d p).2 = .ok files') :
    (files.push d p).1.isFile p = true ∧ files' = p :: files ∧
      files'.push (files.push d p).1 p = ((files.push d p).1, .ok (p :: files')) := by
  rw [push_eq] at h ⊢
  cases hp : (provide d p).2 with
  | error f =>
    simp only [hp] at h
    cases h
  | ok u =>
    have hfile := Disk.isFile_of_provide hp
    have hagain : provide (provide d p).1 p = ((provide d p).1, .ok ()) := if_pos hfile
    simp only [hp] at h
    cases h
    refine ⟨hfile, rfl, ?_⟩
    rw [push_eq, hagain]
    rfl

end OutputStack

/-- A file that cannot be opened leaves the session as it is, the stack in it. -/
theorem World.openFile_of_error {w : World} {raw : String} {p : Path} {f : Fault}
    (hp : (w.resolve raw .file).path? = some p)
    (h : (w.session.files.push w.disk p).2 = .error f) :
    (w.openFile raw).1 = { w with disk := (w.session.files.push w.disk p).1 } := by
  have hr : w.resolve raw .file = .absent p ∨ w.resolve raw .file = .present p := by
    cases hres : w.resolve raw .file with
    | invalid e => rw [hres] at hp; cases hp
    | absent q => rw [hres] at hp; cases hp; exact .inl rfl
    | present q => rw [hres] at hp; cases hp; exact .inr rfl
  have hpush : w.session.files.push w.disk p = ((w.session.files.push w.disk p).1, .error f) :=
    Prod.ext rfl h
  unfold World.openFile
  rcases hr with hr | hr
  · simp only [hr]
    rw [hpush]
    rfl
  · simp only [hr]
    rw [hpush]
    rfl

/-- Making a directory and opening a file take nothing away and change nothing that is
there, whether they succeed or fail; what they are done for is there after a success, and
doing it again changes nothing. -/
theorem making_and_opening_only_add (d : Disk) (p : Path) (files : OutputStack) :
    (d.Grows (fun _ node => node = .dir) (d.makeDirs p).1 ∧
      ((d.makeDirs p).2 = .ok () → p.text ≠ "" →
        (d.makeDirs p).1.isDir p = true ∧
        (d.makeDirs p).1.makeDirs p = ((d.makeDirs p).1, .ok ()))) ∧
    (∃ file, d.Grows (OutputStack.DirOrEmpty file) (files.push d p).1) ∧
    (∀ files', (files.push d p).2 = .ok files' →
      (files.push d p).1.isFile p = true ∧ files' = p :: files ∧
      files'.push (files.push d p).1 p = ((files.push d p).1, .ok (p :: files'))) ∧
    ∀ (w : World) (raw : String) (f : Fault), w.disk = d → w.session.files = files →
      (w.resolve raw .file).path? = some p → (files.push d p).2 = .error f →
      (w.openFile raw).1 = { w with disk := (files.push d p).1 } := by
  refine ⟨⟨d.makeDirs_grows p, Disk.makeDirs_again⟩, ?_, fun _ => OutputStack.push_again, ?_⟩
  · rw [OutputStack.push_eq]
    exact OutputStack.provide_grows d p
  · rintro w raw f rfl rfl
    exact World.openFile_of_error

/-- By a step back out of a directory that is made on the way, and a link to nothing: the
file that the link names is created, and the link stays. -/
theorem making_and_opening_only_add_link :
    let t := (FileTree.empty.add [] "t" .dir).add ["t"] "l" (.link ⟨"x"⟩)
    let d : Disk := ⟨t, ⟨["t"], 0⟩⟩
    let p : Path := ⟨"a/../l"⟩
    let e := (OutputStack.push [] d p).1
    (OutputStack.push [] d p).2 = .ok [p] ∧ e.isFile p = true ∧
      OutputStack.push [p] e p = (e, .ok [p, p]) ∧
      e.tree.get? ["t", "a"] = some .dir ∧ e.tree.get? ["t", "x"] = some (.file .empty) ∧
      e.tree.get? ["t", "l"] = some (.link ⟨"x"⟩) := by
  intro t d p e
  have hdir : e.tree.get? ["t", "a"] = some .dir := by decide +kernel
  have hfile : e.tree.get? ["t", "x"] = some (.file .empty) := by decide +kernel
  have hopen : (OutputStack.push [] d p).2 = .ok [p] := ok_of_toOption (by decide +kernel)
  obtain ⟨-, ⟨file, hgrows⟩, hagain, -⟩ := making_and_opening_only_add d p []
  obtain ⟨hisFile, -, hpush⟩ := hagain [p] hopen
  refine ⟨hopen, hisFile, hpush, hdir, hfile, ?_⟩
  have hlink : d.tree.get? ["t", "l"] = some (.link ⟨"x"⟩) := by decide +kernel
  rcases hgrows.places ["t", "l"] with he | ⟨hnone, -⟩
  · exact he.trans hlink
  · rw [hlink] at hnone
    cases hnone

end Datapack
