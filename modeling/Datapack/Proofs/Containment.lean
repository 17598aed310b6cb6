import Datapack.Proofs.Effects
import Datapack.Proofs.Sequences

/-
  Datapack.Proofs.Containment — a run changes nothing outside its top directory.

  The root that paths are checked against is compared by names, and a layout moves it;
  the calls work on nodes, and make and remove directories along the way. Two things
  carry a run on a disk without links:
  - every path that the session holds is confined to the top: whichever stretch of its
    names is walked, that leads no further than to above the top or to within it, and all
    of them lead within (`Path.Confined`). It is more than to end within: a `mkdir` works
    on every path above as well.
  - outside the top the disk is what it was (`Disk.AgreesOutside`). What lies above the
    top exists then and is no free name, so of such a path nothing is made anew.

  `run_keeps_outside` is the outcome for whole runs, whatever the lines are. The top itself may
  go, and come again as a directory; a file is never put in its place (`run_noFile`).
-/

namespace Datapack

open Script

/-! ## Confined paths -/

namespace Path

/-- However far the names of `p` are walked, that is above `place` or within it; all of
them lead within. -/
structure Confined (place : Place) (p : Path) : Prop where
  isAbsolute : p.isAbsolute = true
  along : ∀ names, names <+: p.names → fold names <+: place ∨ place <+: fold names
  within : place <+: fold p.names

variable {place : Place} {p : Path}

theorem IsCanonical.confined (hp : p.IsCanonical) (h : place <+: p.names) : p.Confined place := by
  refine ⟨hp.isAbsolute, ?_, ?_⟩
  · intro names hn
    have hclean : Clean names := fun name hm => hp.clean name (hn.subset hm)
    rw [fold_of_clean hclean]
    exact List.prefix_or_prefix_of_prefix hn h
  · rw [hp.fold_names]
    exact h

/-- One more name, if that leads within again. -/
theorem Confined.child_of_within (hp : p.Confined place) {name : String} (hn : IsStretch name)
    (h : place <+: foldName (fold p.names) name) : (p.child name).Confined place := by
  have hnames : (p.child name).names = p.names ++ [name] := names_child hn
  refine ⟨by rw [isAbsolute_child hn, hp.isAbsolute], ?_, ?_⟩
  · intro names hpre
    rw [hnames, List.prefix_concat_iff] at hpre
    rcases hpre with rfl | hpre
    · right
      rw [fold_concat]
      exact h
    · exact hp.along names hpre
  · rw [hnames, fold_concat]
    exact h

theorem Confined.child (hp : p.Confined place) {name : String} (hn : IsStretch name)
    (hdots : name ≠ "..") : (p.child name).Confined place :=
  hp.child_of_within hn (prefix_foldName hp.within hdots)

end Path

namespace Skeleton

variable {place : Place} {root : Path}

theorem confined_part (hr : root.Confined place) (part : String)
    (h : part ∈ ["data", "minecraft", "tags", "functions", "pack.mcmeta", "tick.json", "load.json"]) :
    (root.child part).Confined place := by
  refine hr.child (isStretch_part part h) ?_
  rintro rfl
  revert h
  decide

/-- The namespace `..` leads back to the root, and no further. -/
theorem confined_home (hr : root.Confined place) {ns : String} (hns : Path.IsStretch ns) :
    (Skeleton.at root ns).home.Confined place := by
  have hdata := confined_part hr "data" (by decide)
  refine hdata.child_of_within hns ?_
  rw [Path.names_child (isStretch_part "data" (by decide)), Path.fold_concat]
  show place <+: Path.foldName (Path.fold root.names ++ ["data"]) ns
  exact Path.prefix_foldName_concat hr.within ns "data"

theorem confined_functions (hr : root.Confined place) {ns : String} (hns : Path.IsStretch ns) :
    (Skeleton.at root ns).functions.Confined place :=
  confined_part (confined_home hr hns) "functions" (by decide)

theorem confined_tagDirectory (hr : root.Confined place) : (tagDirectory root).Confined place := by
  have hdata := confined_part hr "data" (by decide)
  have hgame := confined_part hdata "minecraft" (by decide)
  have htags := confined_part hgame "tags" (by decide)
  simp only [tagDirectory, List.foldl_cons, List.foldl_nil]
  exact confined_part htags "functions" (by decide)

end Skeleton

theorem Skeleton.confined_plan {place : Place} {root : Path} (hr : root.Confined place)
    {options : SkeletonOptions} (hns : Path.IsStretch options.ns) {step : LayoutStep}
    (h : step ∈ plan root options) : step.path.Confined place := by
  have htags := confined_tagDirectory hr
  simp only [plan, List.mem_cons, List.not_mem_nil, or_false] at h
  rcases h with rfl | rfl | rfl | rfl | rfl
  all_goals simp only [LayoutStep.path]
  · exact htags
  · exact confined_functions hr hns
  all_goals simp only [Skeleton.at]
  · exact confined_part hr "pack.mcmeta" (by decide)
  · exact confined_part htags "tick.json" (by decide)
  · exact confined_part htags "load.json" (by decide)

/-! ## Calls with confined paths -/

namespace Disk

/-- Away from `place` the disk is the tree `t`, and no link stands in it. -/
structure AgreesOutside (place : Place) (t : FileTree) (d : Disk) : Prop where
  linkFree : d.tree.LinkFree
  outside : ∀ q, ¬place <+: q → d.tree.get? q = t.get? q

namespace AgreesOutside

variable {place : Place} {t : FileTree} {d d' : Disk} {p : Path}

theorem sets (hd : d.AgreesOutside place t) {q : Place} {node : Option Node}
    (h : d.Sets d' q node) (hq : place <+: q) (hn : ∀ target, node ≠ some (.link target)) :
    d'.AgreesOutside place t := by
  refine ⟨h.linkFree hd.linkFree hn, ?_⟩
  intro r hr
  have hne : r ≠ q := by
    rintro rfl
    exact hr hq
  rw [h.get?_of_ne hne, hd.outside r hr]

/-- What stands above the place has been there from the start, so it is not made. -/
theorem mkdir (ht : t.isDir place = true) (hd : d.AgreesOutside place t)
    (hp : p.isAbsolute = true)
    (hpath : Path.fold p.names <+: place ∨ place <+: Path.fold p.names)
    (h : d.mkdir p = .ok d') : d'.AgreesOutside place t := by
  obtain ⟨hvacant, hset⟩ := mkdir_sets hd.linkFree hp h
  have within : place <+: Path.fold p.names := by
    rcases hpath with habove | hwithin
    · by_cases he : Path.fold p.names = place
      · simp [he]
      · have hdir : t.get? (Path.fold p.names) = some .dir := by
          refine FileTree.get?_of_prefix ?_ habove he
          simp only [FileTree.isDir, beq_iff_eq] at ht
          rw [ht]
          simp
        have hout : ¬place <+: Path.fold p.names := by
          intro hin
          exact he (habove.eq_of_length_le hin.length_le)
        rw [hd.outside _ hout, hdir] at hvacant
        cases hvacant
    · exact hwithin
  exact hd.sets hset within (by simp)

theorem makeDirs (ht : t.isDir place = true) (hd : d.AgreesOutside place t)
    (hp : p.Confined place) : (d.makeDirs p).1.AgreesOutside place t := by
  refine makeDirs_keeps hp.isAbsolute ?_ hd
  intro d d' q hq hpre hd hm
  exact hd.mkdir ht hq (hp.along q.names hpre) hm

theorem provide (ht : t.isDir place = true) (hd : d.AgreesOutside place t)
    (hp : p.Confined place) : (OutputStack.provide d p).1.AgreesOutside place t := by
  refine provide_keeps hp.isAbsolute ?_ ?_ hd
  · intro d d' q hq hpre hd hm
    exact hd.mkdir ht hq (hp.along q.names hpre) hm
  · intro d d' q hd he
    obtain ⟨rfl, ⟨rfl, _⟩ | ⟨_, hset⟩⟩ := ensureFile_sets hd.linkFree hp.isAbsolute he
    · exact hd
    · exact hd.sets hset hp.within (by simp)

theorem removeTree (hd : d.AgreesOutside place t) (hp : p.Confined place) (self : Bool) :
    (d.removeTree p self).disk.AgreesOutside place t := by
  -- Names that are listed are no `..`, so what is below a directory is within as it is.
  have listed : ∀ (q : Path) (name : String), q.isAbsolute = true ∧ place <+: Path.fold q.names →
      isEntryName name = true →
      (q.child name).isAbsolute = true ∧ place <+: Path.fold (q.child name).names := by
    intro q name hq hname
    obtain ⟨hstep, _, hdots, _⟩ := isEntryName_iff.1 hname
    rw [Path.isAbsolute_child hstep.1, Path.names_child hstep.1, Path.fold_concat]
    exact ⟨hq.1, Path.prefix_foldName hq.2 hdots⟩
  refine removeTree_keeps listed ?_ ⟨hp.isAbsolute, hp.within⟩ self hd
  intro d d' q hq hd hr
  rcases hr with hr | hr
  · exact hd.sets (rmdir_sets hd.linkFree hq.1 hr).2.2 hq.2 (by simp)
  · exact hd.sets (unlink_sets hd.linkFree hq.1 hr).2 hq.2 (by simp)

theorem deleteFile (hd : d.AgreesOutside place t) (hp : p.Confined place)
    (h : d.deleteFile p = .ok (some d')) : d'.AgreesOutside place t :=
  hd.sets (deleteFile_sets hd.linkFree hp.isAbsolute h).2 hp.within (by simp)

theorem append (hd : d.AgreesOutside place t) (hp : p.Confined place) {bytes : ByteArray}
    (h : d.append p bytes = .ok d') : d'.AgreesOutside place t := by
  obtain ⟨old, _, hset⟩ := append_sets hd.linkFree hp.isAbsolute h
  exact hd.sets hset hp.within (by simp)

theorem layOut (ht : t.isDir place = true) (hd : d.AgreesOutside place t) {root : Path}
    (hr : root.Confined place) {options : SkeletonOptions} (hns : Path.IsStretch options.ns) :
    (Skeleton.layOut root options d).disk.AgreesOutside place t := by
  refine Skeleton.layOut_keeps ?_ hd
  intro step hstep d hd
  have hpath := Skeleton.confined_plan hr hns hstep
  cases step with
  | dir p =>
    have made : (d.makeDirs p).1.AgreesOutside place t := hd.makeDirs ht hpath
    simp only [Skeleton.perform]
    split
    · rename_i he; rw [he] at made; exact made
    · rename_i he; rw [he] at made; exact made
  | file p text =>
    simp only [Skeleton.perform]
    split
    · rename_i hs
      exact hd.sets (store_sets hd.linkFree hpath.isAbsolute hs) hpath.within (by simp)
    · exact hd

end AgreesOutside

end Disk

/-! ## Runs -/

/-- All that a run keeps: the paths that the session holds, and the disk outside. -/
structure World.Confined (place : Place) (t : FileTree) (w : World) : Prop where
  disk : w.disk.AgreesOutside place t
  anchors : w.session.anchors.All (Path.Confined place)
  files : ∀ p ∈ w.session.files, p.Confined place

namespace World.Confined

variable {place : Place} {t : FileTree} {w w' : World}

theorem begin {d : Disk} {top : Path} (hl : d.tree.LinkFree) (htop : top.IsCanonical) :
    World.Confined top.names d.tree ⟨d, .begin top (some top)⟩ := by
  have hconfined : top.Confined top.names := htop.confined (List.prefix_refl _)
  refine ⟨⟨hl, fun _ _ => rfl⟩, ⟨hconfined, ?_, ?_⟩, ?_⟩
  · intro r hr
    cases hr
    exact hconfined
  · intro h hh
    cases hh
  · intro p hp
    cases hp

theorem absolute (hw : w.Confined place t) : w.session.anchors.Absolute :=
  ⟨hw.anchors.cwd.isAbsolute, fun r hr => (hw.anchors.root r hr).isAbsolute,
    fun h hh => (hw.anchors.home h hh).isAbsolute⟩

/-- What a path argument leads to is within, since the root is. -/
theorem resolve (hw : w.Confined place t) {raw : String} {wanted : Wanted} {p : Path}
    (h : (w.resolve raw wanted).path? = some p) : p.Confined place := by
  obtain ⟨hp, r, hr, hpre⟩ := Anchors.inside_of_resolve hw.absolute h
  exact hp.confined ((hw.anchors.root r hr).within.trans hpre)

theorem present (hw : w.Confined place t) {raw : String} {wanted : Wanted} {p : Path}
    (h : w.resolve raw wanted = .present p) : p.Confined place :=
  hw.resolve (resolve_path?_of_present h)

theorem disk_of_does (ht : t.isDir place = true) (hw : w.Confined place t) {d : Directive}
    {kinds : List DiagnosticKind} (h : w.Does d w' kinds) : w'.disk.AgreesOutside place t := by
  have hd := hw.disk
  cases h with
  | skipped | rootUnset | root | home | sethomeHere | sethome | cd | close | log => exact hd
  | init ho _ | initFailed ho _ =>
    obtain ⟨rfl, hns⟩ := isNamespace_of_ofArguments ho
    exact hd.layOut ht hw.anchors.cwd (isStretch_of_isNamespace hns)
  | mkdir hp _ | mkdirFailed hp _ =>
    exact hd.makeDirs ht (hw.resolve (resolve_path?_of_absent hp))
  | rmdir hp | clear hp => exact hd.removeTree (hw.present hp) _
  | «open» hp _ | openFailed hp _ => exact hd.provide ht (hw.resolve hp)
  | del hp hdel => exact hd.deleteFile (hw.present hp) hdel

theorem does (ht : t.isDir place = true) (hw : w.Confined place t) {d : Directive}
    {kinds : List DiagnosticKind} (h : w.Does d w' kinds) : w'.Confined place t := by
  refine ⟨hw.disk_of_does ht h, ?_, ?_⟩
  · refine h.anchors_all hw.anchors (fun raw p hp => hw.present hp) ?_
    intro ns hns
    exact ⟨Skeleton.confined_functions hw.anchors.cwd hns,
      Skeleton.confined_home hw.anchors.cwd hns⟩
  · intro q hq
    rcases h.files with hf | ⟨raw, p, hp, hf⟩
    · exact hw.files q (hf q hq)
    · rw [hf] at hq
      rcases List.mem_cons.1 hq with rfl | hq
      · exact hw.resolve hp
      · exact hw.files q hq

theorem executeLine (ht : t.isDir place = true) (hw : w.Confined place t) (line : String) :
    (w.executeLine line).1.Confined place t := by
  rcases w.executeLine_cases line with ⟨_, h⟩ | ⟨d, kinds, _, h⟩ | ⟨text, _, h⟩
  · rw [h]; exact hw
  · exact hw.does ht h
  · rw [h]
    rcases w.writeText_cases text with h | ⟨p, d, hp, _, hd, h⟩
    · rw [h]; exact hw
    · rw [h]
      have hpath : p.Confined place := hw.files p (List.mem_of_mem_head? hp)
      exact ⟨hw.disk.append hpath hd, hw.anchors, hw.files⟩

end World.Confined

theorem World.Confined.run {place : Place} {t : FileTree} {w : World} (ht : t.isDir place = true)
    (hw : w.Confined place t) (source : String) : (w.run source).1.Confined place t :=
  World.runLines_keeps (fun _ _ h => ⟨h.disk, h.anchors, h.files⟩)
    (fun _ line h => h.executeLine ht line) hw 0 (Text.lines source)

/-! ## The top itself -/

structure Disk.NoFileAt (place : Place) (d : Disk) : Prop where
  linkFree : d.tree.LinkFree
  noFile : ∀ bytes, d.tree.get? place ≠ some (.file bytes)

namespace Disk.NoFileAt

variable {place : Place} {d d' : Disk} {p : Path}

theorem sets (hd : d.NoFileAt place) {q : Place} {node : Option Node} (h : d.Sets d' q node)
    (hlink : ∀ target, node ≠ some (.link target))
    (hfile : q = place → ∀ bytes, node ≠ some (.file bytes)) : d'.NoFileAt place := by
  refine ⟨h.linkFree hd.linkFree hlink, ?_⟩
  intro bytes hb
  rw [h place] at hb
  split at hb
  · rename_i hq
    exact hfile hq.symm bytes hb
  · exact hd.noFile bytes hb

theorem mkdir (hd : d.NoFileAt place) (hp : p.isAbsolute = true) (h : d.mkdir p = .ok d') :
    d'.NoFileAt place :=
  hd.sets (mkdir_sets hd.linkFree hp h).2 (by simp) (by simp)

theorem makeDirs (hd : d.NoFileAt place) (hp : p.isAbsolute = true) :
    (d.makeDirs p).1.NoFileAt place :=
  makeDirs_keeps hp (fun _ _ _ hq _ hd hm => hd.mkdir hq hm) hd

theorem provide (hd : d.NoFileAt place) (hp : p.isAbsolute = true)
    (hne : Path.fold p.names ≠ place) : (OutputStack.provide d p).1.NoFileAt place := by
  refine provide_keeps hp (fun _ _ _ hq _ hd hm => hd.mkdir hq hm) ?_ hd
  intro d d' q hd he
  obtain ⟨rfl, ⟨rfl, _⟩ | ⟨_, hset⟩⟩ := ensureFile_sets hd.linkFree hp he
  · exact hd
  · exact hd.sets hset (by simp) fun hq => absurd hq hne

theorem removeTree (hd : d.NoFileAt place) (hp : p.isAbsolute = true) (self : Bool) :
    (d.removeTree p self).disk.NoFileAt place := by
  refine removeTree_keeps (Q := fun q => q.isAbsolute = true) ?_ ?_ hp self hd
  · intro q name hq hname
    rw [Path.isAbsolute_child (isEntryName_iff.1 hname).1.1, hq]
  · intro d d' q hq hd hr
    rcases hr with hr | hr
    · exact hd.sets (rmdir_sets hd.linkFree hq hr).2.2 (by simp) (by simp)
    · exact hd.sets (unlink_sets hd.linkFree hq hr).2 (by simp) (by simp)

theorem append (hd : d.NoFileAt place) (hp : p.isAbsolute = true) {bytes : ByteArray}
    (h : d.append p bytes = .ok d') : d'.NoFileAt place := by
  obtain ⟨old, hold, hset⟩ := append_sets hd.linkFree hp h
  refine hd.sets hset (by simp) fun hq => ?_
  rw [hq] at hold
  exact absurd hold (hd.noFile old)

/-- The files of a datapack stand in a directory of it. -/
theorem layOut (hd : d.NoFileAt place) {root : Path} (hr : root.Confined place)
    {options : SkeletonOptions} (hns : Path.IsStretch options.ns) :
    (Skeleton.layOut root options d).disk.NoFileAt place := by
  have below : ∀ {dir : Path} (part : String), dir.Confined place →
      part ∈ ["pack.mcmeta", "tick.json", "load.json"] →
      Path.fold (dir.child part).names ≠ place := by
    intro dir part hdir hpart he
    have hstretch : Path.IsStretch part :=
      Skeleton.isStretch_part part (List.subset_def.1 (by decide) hpart)
    have hname : part ≠ "." ∧ part ≠ ".." := by
      constructor <;> (rintro rfl; revert hpart; decide)
    rw [Path.names_child hstretch, Path.fold_concat, Path.foldName, if_neg hname.1,
      if_neg hname.2] at he
    have hlen := hdir.within.length_le
    rw [← he, List.length_append, List.length_singleton] at hlen
    omega
  have htags := Skeleton.confined_tagDirectory hr
  refine Skeleton.layOut_keeps ?_ hd
  intro step hstep d hd
  have hpath := Skeleton.confined_plan hr hns hstep
  cases step with
  | dir p =>
    have made : (d.makeDirs p).1.NoFileAt place := hd.makeDirs hpath.isAbsolute
    simp only [Skeleton.perform]
    split
    · rename_i he; rw [he] at made; exact made
    · rename_i he; rw [he] at made; exact made
  | file p text =>
    have hne : Path.fold p.names ≠ place := by
      simp only [Skeleton.plan, List.mem_cons, List.not_mem_nil, or_false, reduceCtorEq, false_or,
        LayoutStep.file.injEq] at hstep
      rcases hstep with ⟨rfl, _⟩ | ⟨rfl, _⟩ | ⟨rfl, _⟩
      · exact below "pack.mcmeta" hr (by decide)
      · exact below "tick.json" htags (by decide)
      · exact below "load.json" htags (by decide)
    simp only [Skeleton.perform]
    split
    · rename_i hs
      exact hd.sets (store_sets hd.linkFree hpath.isAbsolute hs) (by simp) fun hq => absurd hq hne
    · exact hd

end Disk.NoFileAt

namespace World.Confined

variable {place : Place} {t : FileTree} {w w' : World}

/-- A file that is opened stands in a directory within. -/
theorem fold_ne_of_file (hw : w.Confined place t) (hne : place ≠ []) {raw : String} {p : Path}
    (h : (w.resolve raw .file).path? = some p) : Path.fold p.names ≠ place := by
  obtain ⟨hp, hb⟩ := Anchors.checkBoundary_of_resolve hw.absolute h
  obtain ⟨r, hr, hpre⟩ := Anchors.prefix_dropLast_of_checkBoundary hw.absolute hp hb
  rw [hp.fold_names]
  rintro rfl
  have := ((hw.anchors.root r hr).within.trans hpre).length_le
  rw [List.length_dropLast] at this
  have := List.length_pos_iff.2 hne
  omega

theorem noFile_of_does (hw : w.Confined place t) (hne : place ≠ []) (hd : w.disk.NoFileAt place)
    {d : Directive} {kinds : List DiagnosticKind} (h : w.Does d w' kinds) :
    w'.disk.NoFileAt place := by
  cases h with
  | skipped | rootUnset | root | home | sethomeHere | sethome | cd | close | log => exact hd
  | init ho _ | initFailed ho _ =>
    obtain ⟨rfl, hns⟩ := isNamespace_of_ofArguments ho
    exact hd.layOut hw.anchors.cwd (isStretch_of_isNamespace hns)
  | mkdir hp _ | mkdirFailed hp _ =>
    exact hd.makeDirs (hw.resolve (resolve_path?_of_absent hp)).isAbsolute
  | rmdir hp | clear hp => exact hd.removeTree (hw.present hp).isAbsolute _
  | «open» hp _ | openFailed hp _ =>
    exact hd.provide (hw.resolve hp).isAbsolute (hw.fold_ne_of_file hne hp)
  | del hp hdel =>
    exact hd.sets (Disk.deleteFile_sets hd.linkFree (hw.present hp).isAbsolute hdel).2 (by simp)
      (by simp)

theorem noFile_of_executeLine (hw : w.Confined place t) (hne : place ≠ [])
    (hd : w.disk.NoFileAt place) (line : String) : (w.executeLine line).1.disk.NoFileAt place := by
  rcases w.executeLine_cases line with ⟨_, h⟩ | ⟨d, kinds, _, h⟩ | ⟨text, _, h⟩
  · rw [h]; exact hd
  · exact hw.noFile_of_does hne hd h
  · rw [h]
    rcases w.writeText_cases text with h | ⟨p, d, hp, _, happend, h⟩
    · rw [h]; exact hd
    · rw [h]
      exact hd.append (hw.files p (List.mem_of_mem_head? hp)).isAbsolute happend

/-- A run may take its top directory away, but it leaves no file in the place of it. -/
theorem run_noFile (ht : t.isDir place = true) (hw : w.Confined place t)
    (hd : w.disk.NoFileAt place) (source : String) : (w.run source).1.disk.NoFileAt place := by
  by_cases hne : place = []
  · refine ⟨(hw.run ht source).disk.linkFree, ?_⟩
    simp [hne]
  · have hrun := runLines_keeps (I := fun w => w.Confined place t ∧ w.disk.NoFileAt place)
      (fun w n h => ⟨⟨h.1.disk, h.1.anchors, h.1.files⟩, h.2⟩)
      (fun w line h => ⟨h.1.executeLine ht line, h.1.noFile_of_executeLine hne h.2 line⟩)
      ⟨hw, hd⟩ 0 (Text.lines source)
    exact hrun.2

end World.Confined

/-! ## Whole runs -/

/-- Whatever a text asks for, nothing outside its top directory is made, changed or taken
away. -/
theorem run_keeps_outside {d : Disk} {top : Path} (hl : d.tree.LinkFree) (htop : top.IsCanonical)
    (hdir : d.tree.isDir top.names = true) (source : String) {place : Place}
    (hout : ¬top.names <+: place) :
    ((⟨d, .begin top (some top)⟩ : World).run source).1.disk.tree.get? place =
      d.tree.get? place := by
  have hw : World.Confined top.names d.tree ⟨d, .begin top (some top)⟩ := .begin hl htop
  have hrun := World.runLines_keeps (fun w n h => ⟨h.disk, h.anchors, h.files⟩)
    (fun w line h => h.executeLine hdir line) hw 0 (Text.lines source)
  exact hrun.disk.outside place hout

/-- A text that takes its top directory away and names files beside it. -/
theorem run_keeps_outside_sibling :
    let t := (FileTree.empty.add [] "pack" .dir).add [] "packX" (.file "kept".toUTF8)
    let d : Disk := ⟨t, ⟨[], 0⟩⟩
    let source := "#> init ..\n#> open ../../packX\n#> open x\nlost\n#> rmdir /\n#> mkdir ../packX/y"
    (t.LinkFree ∧ (⟨"/pack"⟩ : Path).IsCanonical ∧ t.isDir (⟨"/pack"⟩ : Path).names = true ∧
      ¬(⟨"/pack"⟩ : Path).names <+: ["packX"]) ∧
    ((⟨d, .begin ⟨"/pack"⟩ (some ⟨"/pack"⟩)⟩ : World).run source).1.disk.tree.get? ["packX"] =
      some (.file "kept".toUTF8) := by
  intro t d source
  have hl : t.LinkFree :=
    (FileTree.linkFree_empty.add [] "pack" (by simp)).add [] "packX" (by simp)
  have hcanonical : (⟨"/pack"⟩ : Path).IsCanonical := ⟨by decide +kernel, by
    have : (⟨"/pack"⟩ : Path).names = ["pack"] := by decide +kernel
    rw [this]
    unfold Path.Clean
    decide⟩
  have hdir : t.isDir (⟨"/pack"⟩ : Path).names = true := by decide +kernel
  have hout : ¬(⟨"/pack"⟩ : Path).names <+: ["packX"] := by decide +kernel
  refine ⟨⟨hl, hcanonical, hdir, hout⟩, ?_⟩
  have hfile : t.get? ["packX"] = some (.file "kept".toUTF8) := by decide +kernel
  have hkept := run_keeps_outside (d := d) hl hcanonical hdir source hout
  exact hkept.trans hfile

end Datapack
