import Datapack.Proofs.Lockstep

/-
  Datapack.Proofs.Locality — a run sees nothing but what lies along its top directory.

  All paths that a session holds are confined to the top directory, and so is whatever an
  argument leads to. So if the same session works on two disks that are twins at the top, a
  line does the same in both worlds: it gives the same notes, and leaves the same session on
  disks that are twins again. There is one such statement for each directive, in the order
  of `Datapack.Execution`, and with them for every line (`Twin.executeLine`) and for every
  run (`Twin.run`).
-/

namespace Datapack

open Script

namespace Anchors

variable {d e : Disk}

theorem existing_congr {anchor : Option Path} (h : ∀ p ∈ anchor, d.isDir p = e.isDir p)
    (unset : InvalidPath) (missing : Path → InvalidPath) :
    existing d anchor unset missing = existing e anchor unset missing := by
  cases anchor with
  | none => rfl
  | some p =>
    unfold existing
    simp only [h p rfl]

/-- Of the disk an argument needs to know whether the root and the home are there. -/
theorem locate_congr {a : Anchors} (hroot : ∀ p ∈ a.root, d.isDir p = e.isDir p)
    (hhome : ∀ p ∈ a.home, d.isDir p = e.isDir p) (raw : String) (wanted : Wanted)
    (outside : Bool) : a.locate d raw wanted outside = a.locate e raw wanted outside := by
  simp only [locate, anchored, existing_congr hroot, existing_congr hhome]

end Anchors

namespace World

structure Twin (place : Place) (w v : World) : Prop where
  disk : w.disk.Twin place v.disk
  session : w.session = v.session

structure Step.Twin (place : Place) (s t : Step) : Prop where
  world : World.Twin place s.1 t.1
  notes : s.2 = t.2

namespace Twin

variable {place : Place} {t : FileTree} {w v : World}

theorem skip (h : w.Twin place v) (message : String) :
    (w.skip message).Twin place (v.skip message) := ⟨h, rfl⟩

theorem resolve (h : w.Twin place v) (hw : w.Confined place t) (raw : String) (wanted : Wanted) :
    w.resolve raw wanted = v.resolve raw wanted := by
  -- The other world is the same session on another disk; so in the proofs below.
  obtain ⟨e, s⟩ := v
  obtain ⟨hd, rfl⟩ := h
  have hlocate : w.session.anchors.locate w.disk raw wanted false =
      w.session.anchors.locate e raw wanted false :=
    Anchors.locate_congr (fun p hp => hd.isDir (hw.anchors.root p hp).toAlong)
      (fun p hp => hd.isDir (hw.anchors.home p hp).toAlong) raw wanted false
  unfold World.resolve Anchors.resolve
  rw [← hlocate]
  cases hl : w.session.anchors.locate w.disk raw wanted false with
  | error f => rfl
  | ok p =>
    have hp : p.Along place := (hw.resolve (Anchors.path?_of_ok hl)).toAlong
    simp only [hd.isDir hp, hd.isFile hp]

/-! ### Directives -/

theorem goRoot (h : w.Twin place v) (hw : w.Confined place t) :
    w.goRoot.Twin place v.goRoot := by
  obtain ⟨e, s⟩ := v
  obtain ⟨hd, rfl⟩ := h
  unfold World.goRoot
  cases hr : w.session.anchors.root with
  | none => exact ⟨⟨hd, rfl⟩, rfl⟩
  | some r =>
    simp only [← hd.isDir (hw.anchors.root r hr).toAlong]
    split <;> exact ⟨⟨hd, rfl⟩, rfl⟩

theorem goHome (h : w.Twin place v) (hw : w.Confined place t) :
    w.goHome.Twin place v.goHome := by
  obtain ⟨e, s⟩ := v
  obtain ⟨hd, rfl⟩ := h
  unfold World.goHome
  cases hh : w.session.anchors.home with
  | none => exact ⟨⟨hd, rfl⟩, rfl⟩
  | some home =>
    simp only [← hd.isDir (hw.anchors.home home hh).toAlong]
    split <;> exact ⟨⟨hd, rfl⟩, rfl⟩

theorem changeHome (h : w.Twin place v) (hw : w.Confined place t) (path : Option String) :
    (w.changeHome path).Twin place (v.changeHome path) := by
  have hresolve := h.resolve hw
  obtain ⟨e, s⟩ := v
  obtain ⟨hd, rfl⟩ := h
  unfold World.changeHome
  cases path with
  | none =>
    simp only [← hd.isDir hw.anchors.cwd.toAlong]
    split <;> exact ⟨⟨hd, rfl⟩, rfl⟩
  | some raw =>
    simp only [← hresolve]
    split <;> exact ⟨⟨hd, rfl⟩, rfl⟩

theorem enter (h : w.Twin place v) (s : Skeleton) (ns : String) :
    (w.enter s ns).Twin place (v.enter s ns) := by
  obtain ⟨e, session⟩ := v
  obtain ⟨hd, rfl⟩ := h
  unfold World.enter setRoot setHome moveTo tell lineText
  exact ⟨⟨hd, rfl⟩, rfl⟩

/-- A layout either fails or is entered, at the same step of its plan on both. -/
theorem layOut (h : w.Twin place v) (hw : w.Confined place t) {options : SkeletonOptions}
    (hns : Path.IsStretch options.ns) :
    (w.layOut options).1.Twin place (v.layOut options).1 ∧
      (w.layOut options).2 = (v.layOut options).2 := by
  obtain ⟨e, session⟩ := v
  obtain ⟨hd, rfl⟩ := h
  obtain ⟨hdisk, hdone, herror⟩ := hd.layOut hw.anchors.cwd hns
  unfold World.layOut
  simp only [← herror, ← hdone]
  generalize Skeleton.layOut w.session.anchors.cwd options w.disk = x at hdisk ⊢
  generalize Skeleton.layOut w.session.anchors.cwd options e = y at hdisk ⊢
  have hlaid : World.Twin place { w with disk := x.disk } ⟨y.disk, w.session⟩ := ⟨hdisk, rfl⟩
  have hentered := hlaid.enter (Skeleton.at w.session.anchors.cwd options.ns) options.ns
  cases x.error with
  | some f => exact ⟨⟨hlaid, rfl⟩, rfl⟩
  | none => exact ⟨⟨hentered.world, congrArg (createdBy x.done ++ ·) hentered.notes⟩, rfl⟩

theorem initialise (h : w.Twin place v) (hw : w.Confined place t) (ns : String)
    (format description : Option String) :
    (w.initialise ns format description).Twin place (v.initialise ns format description) := by
  unfold World.initialise
  cases ho : SkeletonOptions.ofArguments ns format description with
  | error f => exact h.skip _
  | ok options =>
    obtain ⟨rfl, hns⟩ := isNamespace_of_ofArguments ho
    have hstretch : Path.IsStretch options.ns := isStretch_of_isNamespace hns
    obtain ⟨hstep, hresult⟩ := h.layOut hw hstretch
    simp only
    generalize w.layOut options = x at hstep hresult ⊢
    generalize v.layOut options = y at hstep hresult ⊢
    obtain ⟨step, result⟩ := x
    obtain ⟨step', result'⟩ := y
    obtain rfl : result = result' := hresult
    cases result with
    | ok s => exact hstep
    | error f =>
      exact ⟨hstep.world, congrArg (· ++ [.diagnostic .skipped ("init: " ++ f.message)]) hstep.notes⟩

theorem changeDir (h : w.Twin place v) (hw : w.Confined place t) (raw : String) :
    (w.changeDir raw).Twin place (v.changeDir raw) := by
  have hresolve := h.resolve hw
  obtain ⟨e, s⟩ := v
  obtain ⟨hd, rfl⟩ := h
  unfold World.changeDir
  rw [← hresolve]
  split <;> exact ⟨⟨hd, rfl⟩, rfl⟩

theorem makeDir (h : w.Twin place v) (hw : w.Confined place t) (raw : String) :
    (w.makeDir raw).Twin place (v.makeDir raw) := by
  have hresolve := h.resolve hw
  obtain ⟨e, s⟩ := v
  obtain ⟨hd, rfl⟩ := h
  unfold World.makeDir
  rw [← hresolve]
  split
  · rename_i dir hdir
    have hmade := hd.makeDirs (hw.resolve (resolve_path?_of_absent hdir)).toAlong
    simp only
    generalize w.disk.makeDirs dir = x at hmade ⊢
    generalize e.makeDirs dir = y at hmade ⊢
    obtain ⟨told, h'⟩ := hmade
    cases told with
    | error f => exact ⟨⟨h', rfl⟩, rfl⟩
    | ok u => exact ⟨⟨h', rfl⟩, rfl⟩
  · exact ⟨⟨hd, rfl⟩, rfl⟩
  · exact ⟨⟨hd, rfl⟩, rfl⟩

theorem removeDir (h : w.Twin place v) (hw : w.Confined place t) (name raw : String) (self : Bool) :
    (w.removeDir name raw self).Twin place (v.removeDir name raw self) := by
  have hresolve := h.resolve hw
  obtain ⟨e, s⟩ := v
  obtain ⟨hd, rfl⟩ := h
  unfold World.removeDir
  rw [← hresolve]
  split
  · exact ⟨⟨hd, rfl⟩, rfl⟩
  · exact ⟨⟨hd, rfl⟩, rfl⟩
  · rename_i dir hdir
    obtain ⟨hdisk, hsteps⟩ := hd.removeTree (hw.present hdir) self
    refine ⟨⟨hdisk, rfl⟩, ?_⟩
    -- The account is all that is told.
    simp only [removalOutcome, Removal.failures, Removal.files, Removal.dirs, ← hsteps]
    rfl

theorem openFile (h : w.Twin place v) (hw : w.Confined place t) (raw : String) :
    (w.openFile raw).Twin place (v.openFile raw) := by
  have hresolve := h.resolve hw
  obtain ⟨e, s⟩ := v
  obtain ⟨hd, rfl⟩ := h
  unfold World.openFile
  rw [← hresolve]
  cases hr : w.resolve raw .file with
  | invalid f => exact ⟨⟨hd, rfl⟩, rfl⟩
  | present p | absent p =>
    have hp : (w.resolve raw .file).path? = some p := by rw [hr]; rfl
    have hpushed := hd.push (hw.resolve hp) w.session.files
    simp only
    generalize w.session.files.push w.disk p = x at hpushed ⊢
    generalize w.session.files.push e p = y at hpushed ⊢
    obtain ⟨told, h'⟩ := hpushed
    cases told with
    | error f => exact ⟨⟨h', rfl⟩, rfl⟩
    | ok files => exact ⟨⟨h', rfl⟩, rfl⟩

theorem closeFile (h : w.Twin place v) : w.closeFile.Twin place v.closeFile := by
  obtain ⟨e, s⟩ := v
  obtain ⟨hd, rfl⟩ := h
  unfold World.closeFile
  cases hf : w.session.files with
  | nil => exact ⟨⟨hd, rfl⟩, rfl⟩
  | cons p files => exact ⟨⟨hd, rfl⟩, rfl⟩

theorem deleteFile (h : w.Twin place v) (hw : w.Confined place t) (raw : String) :
    (w.deleteFile raw).Twin place (v.deleteFile raw) := by
  have hresolve := h.resolve hw
  obtain ⟨e, s⟩ := v
  obtain ⟨hd, rfl⟩ := h
  unfold World.deleteFile
  rw [← hresolve]
  split
  · rename_i p hp
    have hdeleted := hd.deleteFile (hw.present hp)
    simp only
    generalize w.disk.deleteFile p = x at hdeleted ⊢
    generalize e.deleteFile p = y at hdeleted ⊢
    cases hdeleted with
    | error f => exact ⟨⟨hd, rfl⟩, rfl⟩
    | ok h' =>
      cases h' with
      | none => exact ⟨⟨hd, rfl⟩, rfl⟩
      | some h' => exact ⟨⟨h', rfl⟩, rfl⟩
  · exact ⟨⟨hd, rfl⟩, rfl⟩
  · exact ⟨⟨hd, rfl⟩, rfl⟩

theorem perform (h : w.Twin place v) (hw : w.Confined place t) (d : Directive) :
    (w.perform d).Twin place (v.perform d) := by
  cases d with
  | root => exact h.goRoot hw
  | home => exact h.goHome hw
  | sethome path => exact h.changeHome hw path
  | init ns format description => exact h.initialise hw ns format description
  | cd path => exact h.changeDir hw path
  | mkdir path => exact h.makeDir hw path
  | rmdir path => exact h.removeDir hw "rmdir" path true
  | clear path => exact h.removeDir hw "clear" (path.getD ".") false
  | «open» path => exact h.openFile hw path
  | close => exact h.closeFile
  | del path => exact h.deleteFile hw path
  | log message => exact ⟨h, rfl⟩

/-! ### Lines and runs -/

theorem writeText (h : w.Twin place v) (hw : w.Confined place t) (text : String) :
    (w.writeText text).Twin place (v.writeText text) := by
  obtain ⟨e, s⟩ := v
  obtain ⟨hd, rfl⟩ := h
  unfold World.writeText OutputStack.write
  cases hf : w.session.files.current? with
  | none => exact ⟨⟨hd, rfl⟩, rfl⟩
  | some p =>
    have hp : p.Confined place := hw.files p (List.mem_of_mem_head? hf)
    have happended := hd.append hp (OutputStack.written text)
    simp only [← hd.isFile hp.toAlong]
    by_cases hfile : w.disk.isFile p = true
    · simp only [hfile, if_true]
      generalize w.disk.append p (OutputStack.written text) = x at happended ⊢
      generalize e.append p (OutputStack.written text) = y at happended ⊢
      cases happended with
      | error f => exact ⟨⟨hd, rfl⟩, rfl⟩
      | ok h' => exact ⟨⟨h', rfl⟩, rfl⟩
    · simp only [hfile]
      exact ⟨⟨hd, rfl⟩, rfl⟩

theorem executeLine (h : w.Twin place v) (hw : w.Confined place t) (line : String) :
    (w.executeLine line).Twin place (v.executeLine line) := by
  unfold World.executeLine
  cases classify line with
  | blank => exact ⟨h, rfl⟩
  | malformed f => exact ⟨h, rfl⟩
  | content text => exact h.writeText hw text
  | directive d =>
    have hdone := h.perform hw d
    refine ⟨hdone.world, ?_⟩
    unfold execute tell lineText
    simp only [hdone.notes, h.session]

theorem runLines (ht : t.isDir place = true) (h : w.Twin place v) (hw : w.Confined place t) (n : Nat)
    (lines : List String) : (w.runLines n lines).1.Twin place (v.runLines n lines).1 ∧
      (w.runLines n lines).2 = (v.runLines n lines).2 := by
  induction lines generalizing w v n with
  | nil => exact ⟨h, rfl⟩
  | cons line rest ih =>
    have hnumber : Twin place { w with session.line := n + 1 } { v with session.line := n + 1 } :=
      ⟨h.disk, by rw [h.session]⟩
    have hw' : Confined place t { w with session.line := n + 1 } := ⟨hw.disk, hw.anchors, hw.files⟩
    have hline := hnumber.executeLine hw' line
    obtain ⟨hworld, hnotes⟩ := ih hline.world (hw'.executeLine ht line) (n + 1)
    refine ⟨hworld, ?_⟩
    simp only [World.runLines, hline.notes, hnotes]

theorem run (ht : t.isDir place = true) (h : w.Twin place v) (hw : w.Confined place t)
    (source : String) : (w.run source).1.Twin place (v.run source).1 ∧
      (w.run source).2 = (v.run source).2 := h.runLines ht hw 0 (Text.lines source)

end Twin

end World

end Datapack
