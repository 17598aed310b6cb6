import Datapack.Execution
import Datapack.Proofs.Creating
import Datapack.Proofs.Layout
import Datapack.Proofs.Paving

/-
  Datapack.Proofs.Laying — what is there when a datapack has been laid out.

  Each step of the plan is to bring one thing about: a directory is there, or a file has its
  text (`LayoutStep.Holds`). A step that does not fail does so (`holds_of_perform`), one that
  holds already does nothing (`perform_of_holds`), and none undoes another, unless both write
  to one place (`holds_of_rewrites`). The three files of a skeleton are at three places
  (`nodup_written`). So after a plan without a failure all of it holds (`performAll_holds`),
  and doing it once more changes nothing (`performAll_of_holds`).

  However far a plan gets, it takes nothing away, and of the files that were there it changes
  at most those that its paths lead to (`Disk.Rewrites`, `performAll_rewrites`).

  The root need not be normalised, nor need there be anything at it: its names are walked
  along as they are. The session is set last (`layOut_skeleton`).
-/

namespace Datapack

namespace Disk

variable {d d' d'' : Disk} {p : Path} {place : Place} {bytes : ByteArray}

/-! ## What stays when more is made -/

theorem isDir_of_find (hf : d.find p = .ok place) (hdir : d.tree.get? place = some .dir) :
    d.isDir p = true := by
  rw [isDir_iff_node, node, find_iff.1 hf]
  simp only [hdir]

theorem isDir_of_outlines (h : d.Outlines d') (hdir : d.isDir p = true) : d'.isDir p = true := by
  rcases land_of_isDir_cases hdir with ⟨q, hl, hget⟩ | hl
  · exact isDir_of_find (find_iff.2 (land_of_outlines h hl)) (h.tree.dir hget)
  · rw [isDir_iff_node, node, land_removed h.workdir hl]

theorem Adds.linkFree {ps : List Path} (h : d.Adds ps d') (hd : d.tree.LinkFree) :
    d'.tree.LinkFree := by
  intro q target hq
  rcases h.places q with he | ⟨_, hdir, _⟩
  · rw [he] at hq
    exact hd q target hq
  · rw [hdir] at hq
    cases hq

/-- Whether a directory was made or found there, the path leads to one: any path that has a
text will do. -/
theorem isDir_of_makeDirs_ok (htext : p.text ≠ "") (h : (d.makeDirs p).2 = .ok ()) :
    (d.makeDirs p).1.isDir p = true := by
  have hancestors : p.ancestors = p :: (Path.ancestors.upTo (p.text.length + 1) p).tail := by
    rw [Path.ancestors, Path.ancestors.upTo, if_neg htext]
    rfl
  unfold makeDirs at h ⊢
  rw [hancestors] at h ⊢
  rcases makeDirsUp_cases p _ d with ⟨e, f, _, hr⟩ | ⟨e, _, ⟨d', hm, hr⟩ | ⟨f, _, hr⟩⟩
  · rw [hr] at h
    cases h
  · obtain ⟨q, _, hset, _, hfind⟩ := find_of_mkdir hm
    rw [hr]
    exact isDir_of_find hfind hset.get?
  · rw [hr] at h ⊢
    by_cases hdir : e.isDir p = true
    · exact hdir
    · simp [hdir] at h

/-! ## The directory above -/

theorem text_child {name : String} (hname : Path.IsStretch name) (p : Path) :
    ∃ more, (p.child name).text = p.text ++ more := by
  unfold Path.child Path.join
  rw [if_neg (by simp [Path.isAbsolute_of_isStretch hname])]
  split
  · exact ⟨name, rfl⟩
  · exact ⟨"/" ++ name, String.append_assoc ..⟩

/-- Where there is a directory in it, a path leads to a directory. -/
theorem isDir_of_child (hd : d.tree.LinkFree) (hp : p.isAbsolute = true) {name : String}
    (hname : Path.IsStretch name) (h : d.isDir (p.child name) = true) : d.isDir p = true := by
  have hchild : (p.child name).isAbsolute = true := by rw [Path.isAbsolute_child hname, hp]
  obtain ⟨hnul, hlen, q, hleads, _⟩ := (node_iff_steps hchild).1 (isDir_iff_node.1 h)
  obtain ⟨more, htext⟩ := text_child hname p
  have hnul' : p.hasNul = false := by
    unfold Path.hasNul at hnul ⊢
    rw [htext, String.toList_append] at hnul
    simp_all
  have hlen' : p.text.utf8ByteSize ≤ maxPathBytes := by
    rw [htext, String.utf8ByteSize_append] at hlen
    omega
  obtain ⟨rest, hrest, hsteps⟩ : ∃ rest, rest ≠ [] ∧ (p.child name).steps = p.names ++ rest := by
    rcases steps_cases (p.child name) with he | he
    · exact ⟨[name], by simp, by rw [he, Path.names_child hname]⟩
    · exact ⟨[name, "."], by simp, by rw [he, Path.names_child hname]; simp⟩
  have ha := FileTree.advance_of_leads hd hleads
  rw [hsteps] at ha
  obtain ⟨dir, habove, hdir⟩ := FileTree.advance_above hrest ha
  exact isDir_of_find (find_of_land_names ((land_iff hp).2 ⟨hnul', hlen', .here habove⟩) hdir) hdir

/-! ## Files that are written -/

theorem ensureFile_own {q : Path} (h : d.ensureFile q = .ok (d', place)) :
    (q.endsInOwnName && !q.endsInSeparator) = true := by
  unfold ensureFile at h
  split at h
  · assumption
  · split at h <;> cases h

/-- Where a file is, opening its path for writing leaves everything as it is. -/
theorem ensureFile_of_land (hown : (p.endsInOwnName && !p.endsInSeparator) = true)
    (hl : d.land .write p p.names = .ok (.node place)) (hfile : d.tree.get? place = some (.file bytes)) :
    d.ensureFile p = .ok (d, place) := by
  unfold ensureFile
  rw [if_pos hown, hl]
  simp [FileTree.isDir, hfile]

theorem ensureFile_of_outlines (h : d.Outlines d') (he : d.ensureFile p = .ok (d, place))
    (hfile : d'.tree.get? place = some (.file bytes)) : d'.ensureFile p = .ok (d', place) := by
  rcases ensureFile_lands he with ⟨hl, _⟩ | ⟨_, _, _, _, hfree, hset⟩
  · exact ensureFile_of_land (ensureFile_own he) (land_of_outlines h hl) hfile
  · rw [hset.get?] at hfree
    cases hfree

theorem read_of_find (hf : d.find p = .ok place) (hfile : d.tree.get? place = some (.file bytes)) :
    d.read p = .ok bytes := by
  rw [read, node, find_iff.1 hf]
  simp only [hfile]

/-- What is stored is where its path leads, and nothing else has changed. -/
theorem store_lands (h : d.store p bytes = .ok d') : ∃ place,
    d.Sets d' place (some (.file bytes)) ∧
    (d.tree.get? place = none ∨ ∃ old, d.tree.get? place = some (.file old)) ∧
    d.Outlines d' ∧ d'.ensureFile p = .ok (d', place) := by
  unfold store at h
  split at h
  · cases h
  rename_i e place he
  cases h
  have hworkdir : (e.setContent place bytes).workdir = d.workdir := (ensureFile_shape he).2
  obtain ⟨hset, hbefore⟩ : d.Sets (e.setContent place bytes) place (some (.file bytes)) ∧
      (d.tree.get? place = none ∨ ∃ old, d.tree.get? place = some (.file old)) := by
    rcases ensureFile_lands he with ⟨_, rfl, old, hold⟩ | ⟨_, _, _, rfl, hfree, hmade⟩
    · exact ⟨setContent_sets hold, .inr ⟨old, hold⟩⟩
    · exact ⟨hmade.trans (setContent_sets hmade.get?), .inl hfree⟩
  have houtlines : d.Outlines (e.setContent place bytes) :=
    outlines_of_file hworkdir hbefore hset.get? fun _ _ hq hnode => (hset.get?_of_ne hq).trans hnode
  refine ⟨place, hset, hbefore, houtlines, ensureFile_of_land (ensureFile_own he) ?_ hset.get?⟩
  rcases ensureFile_lands he with ⟨hl, _⟩ | ⟨dir, name, hl, rfl, _⟩
  · exact land_of_outlines houtlines hl
  · exact land_vacant_of_outlines houtlines hset.get? (by simp) hl

/-- Storing what is there already changes nothing. -/
theorem store_self (he : d.ensureFile p = .ok (d, place))
    (hfile : d.tree.get? place = some (.file bytes)) : d.store p bytes = .ok d := by
  have hset : d.Sets (d.setContent place bytes) place (some (.file bytes)) := setContent_sets hfile
  have htree : (d.setContent place bytes).tree = d.tree := by
    apply FileTree.ext
    intro q
    rw [hset q]
    split
    · rename_i hq
      rw [hq, hfile]
    · rfl
  have hsame : d.setContent place bytes = d := congrArg (Disk.mk · d.workdir) htree
  unfold store
  rw [he]
  simp only [hsame]

/-- From `d` to `d'` nothing is taken away, and of what was there only files can have changed
that one of the paths `ps` leads to. -/
structure Rewrites (ps : List Path) (d d' : Disk) : Prop where
  workdir : d'.workdir = d.workdir
  kept : ∀ q node, d.tree.get? q = some node → d'.tree.get? q = some node ∨
    (∃ old new, node = .file old ∧ d'.tree.get? q = some (.file new)) ∧ ∃ p ∈ ps, d'.find p = .ok q

namespace Rewrites

variable {ps : List Path}

theorem outlines (h : d.Rewrites ps d') : d.Outlines d' := by
  refine ⟨fun q node hq => ?_, h.workdir⟩
  rcases h.kept q node hq with he | ⟨⟨old, new, rfl, hnew⟩, _⟩
  · rw [he]
    rfl
  · rw [hnew]
    rfl

theorem refl (ps : List Path) (d : Disk) : d.Rewrites ps d := ⟨rfl, fun _ _ hq => .inl hq⟩

theorem mono {qs : List Path} (h : d.Rewrites ps d') (hsub : ps ⊆ qs) : d.Rewrites qs d' := by
  refine ⟨h.workdir, fun q node hq => (h.kept q node hq).imp_right ?_⟩
  rintro ⟨hfile, p, hp, hfind⟩
  exact ⟨hfile, p, hsub hp, hfind⟩

theorem trans (h : d.Rewrites ps d') (h' : d'.Rewrites ps d'') : d.Rewrites ps d'' := by
  refine ⟨h'.workdir.trans h.workdir, fun q node hq => ?_⟩
  rcases h.kept q node hq with he | ⟨⟨old, new, rfl, hnew⟩, p, hp, hfind⟩
  · exact h'.kept q node he
  · right
    obtain ⟨last, hlast⟩ := h'.outlines.tree.file hnew
    exact ⟨⟨old, last, rfl, hlast⟩, p, hp, find_of_outlines h'.outlines hfind⟩

end Rewrites

theorem rewrites_makeDirs (p : Path) (d : Disk) : d.Rewrites [] (d.makeDirs p).1 := by
  have hadds := adds_makeDirsUp p.ancestors d
  refine ⟨hadds.workdir, fun q node hq => .inl ?_⟩
  rcases hadds.places q with he | ⟨hnone, _⟩
  · exact he.trans hq
  · rw [hnone] at hq
    cases hq

theorem rewrites_store (h : d.store p bytes = .ok d') : d.Rewrites [p] d' := by
  obtain ⟨place, hset, hbefore, houtlines, he⟩ := store_lands h
  refine ⟨houtlines.workdir, fun q node hq => ?_⟩
  by_cases hplace : q = place
  · subst hplace
    right
    rcases hbefore with hnone | ⟨old, hold⟩
    · rw [hnone] at hq
      cases hq
    · rw [hold] at hq
      cases hq
      exact ⟨⟨old, bytes, rfl, hset.get?⟩, p, List.mem_singleton_self p, (find_of_ensureFile he).1⟩
  · exact .inl ((hset.get?_of_ne hplace).trans hq)

end Disk

/-! ## Steps of the plan -/

namespace LayoutStep

def written : LayoutStep → List Path
  | dir _ => []
  | file p _ => [p]

/-- What a step is to bring about: its directory is there, or its file has its text. -/
def Holds (d : Disk) : LayoutStep → Prop
  | dir p => d.isDir p = true
  | file p text => ∃ place, d.ensureFile p = .ok (d, place) ∧
      d.tree.get? place = some (.file text.toUTF8)

end LayoutStep

namespace Skeleton

open LayoutStep

variable {d d' : Disk} {step : LayoutStep} {steps : List LayoutStep}

theorem perform_rewrites (step : LayoutStep) (d : Disk) :
    d.Rewrites step.written (perform d step).1 := by
  cases step with
  | dir p =>
    have hmakes := Disk.rewrites_makeDirs p d
    simp only [perform]
    generalize d.makeDirs p = r at hmakes
    obtain ⟨e, o⟩ := r
    cases o <;> exact hmakes
  | file p text =>
    simp only [perform]
    cases hstore : d.store p text.toUTF8 with
    | error f => exact .refl _ d
    | ok e => exact Disk.rewrites_store hstore

theorem perform_linkFree (hd : d.tree.LinkFree) (step : LayoutStep) :
    (perform d step).1.tree.LinkFree := by
  cases step with
  | dir p =>
    have hmakes := (Disk.adds_makeDirsUp p.ancestors d).linkFree hd
    simp only [perform, Disk.makeDirs]
    generalize Disk.makeDirsUp p.ancestors d = r at hmakes
    obtain ⟨e, o⟩ := r
    cases o <;> exact hmakes
  | file p text =>
    simp only [perform]
    cases hstore : d.store p text.toUTF8 with
    | error f => exact hd
    | ok e =>
      obtain ⟨_, hset, _⟩ := Disk.store_lands hstore
      exact hset.linkFree hd (by simp)

/-- A step that does not fail brings about what it is to. -/
theorem holds_of_perform (hp : step.path.isAbsolute = true) (h : perform d step = (d', none)) :
    step.Holds d' := by
  cases step with
  | dir p =>
    simp only [perform] at h
    cases hmake : d.makeDirs p with
    | mk e o =>
      rw [hmake] at h
      cases o with
      | error f => cases h
      | ok =>
        cases h
        have htext : p.text ≠ "" := Path.text_ne_empty hp
        have hdir := Disk.isDir_of_makeDirs_ok htext (congrArg Prod.snd hmake)
        rwa [hmake] at hdir
  | file p text =>
    simp only [perform] at h
    cases hstore : d.store p text.toUTF8 with
    | error f =>
      rw [hstore] at h
      cases h
    | ok e =>
      rw [hstore] at h
      cases h
      obtain ⟨place, hset, _, _, he⟩ := Disk.store_lands hstore
      exact ⟨place, he, hset.get?⟩

/-- What holds already needs nothing. -/
theorem perform_of_holds (h : step.Holds d) : perform d step = (d, none) := by
  cases step with
  | dir p =>
    simp only [perform]
    rw [Disk.makeDirs_of_isDir h]
  | file p text =>
    obtain ⟨place, he, hfile⟩ := h
    simp only [perform]
    rw [Disk.store_self he hfile]

/-- It goes on holding while files at other places are written. -/
theorem holds_of_rewrites {ps : List Path} (hd : d.tree.LinkFree) (hd' : d'.tree.LinkFree)
    (hp : step.path.isAbsolute = true) (hps : ∀ p ∈ ps, p.isAbsolute = true)
    (hother : ∀ p ∈ step.written, ∀ q ∈ ps, Path.fold p.names ≠ Path.fold q.names)
    (h : d.Rewrites ps d') (hholds : step.Holds d) : step.Holds d' := by
  cases step with
  | dir p => exact Disk.isDir_of_outlines h.outlines hholds
  | file p text =>
    obtain ⟨place, he, hfile⟩ := hholds
    have hthere : d'.tree.get? place = some (.file text.toUTF8) := by
      rcases h.kept place _ hfile with hsame | ⟨_, q, hq, hfind⟩
      · exact hsame
      · have hplace : place = Path.fold p.names := (Disk.ensureFile_sets hd hp he).1
        have hplace' : place = Path.fold q.names := Disk.find_of_linkFree hd' (hps q hq) hfind
        exact absurd (hplace.symm.trans hplace') (hother p (List.mem_singleton_self p) q hq)
    exact ⟨place, Disk.ensureFile_of_outlines h.outlines he hthere, hthere⟩

/-! ## The whole plan -/

theorem performAll_linkFree (hd : d.tree.LinkFree) (steps : List LayoutStep) :
    (performAll steps d).disk.tree.LinkFree :=
  performAll_keeps (P := fun e => e.tree.LinkFree) (fun step _ _ h => perform_linkFree h step) hd

theorem performAll_rewrites (steps : List LayoutStep) (d : Disk) :
    d.Rewrites (steps.flatMap written) (performAll steps d).disk := by
  refine performAll_keeps (P := fun e => d.Rewrites (steps.flatMap written) e) ?_ (.refl _ d)
  intro step hstep e he
  exact he.trans ((perform_rewrites step e).mono (fun p hp => List.mem_flatMap.2 ⟨step, hstep, hp⟩))

/-- What ends well has ended well up to each step. -/
theorem performAll_cons (h : (performAll (step :: steps) d).error = none) :
    ∃ d', perform d step = (d', none) ∧ (performAll steps d').error = none ∧
      (performAll (step :: steps) d).disk = (performAll steps d').disk := by
  rw [performAll] at h ⊢
  cases hstep : perform d step with
  | mk d' o =>
    rw [hstep] at h
    cases o with
    | some e => cases h
    | none => exact ⟨d', rfl, h, rfl⟩

/-- When all has been done everything holds, provided that no file is written twice. -/
theorem performAll_holds (hd : d.tree.LinkFree) (hp : ∀ step ∈ steps, step.path.isAbsolute = true)
    (hplaces : ((steps.flatMap written).map (Path.fold ·.names)).Nodup)
    (h : (performAll steps d).error = none) : ∀ step ∈ steps, step.Holds (performAll steps d).disk := by
  induction steps generalizing d with
  | nil =>
    intro step hs
    cases hs
  | cons step steps ih =>
    obtain ⟨d', hstep, hlater, hdisk⟩ := performAll_cons h
    have hd' : d'.tree.LinkFree := by
      have hkept := perform_linkFree hd step
      rwa [hstep] at hkept
    rw [List.flatMap_cons, List.map_append, List.nodup_append] at hplaces
    obtain ⟨_, hrest, hother⟩ := hplaces
    have habsolute : ∀ q ∈ steps.flatMap written, q.isAbsolute = true := by
      intro q hq
      obtain ⟨s, hs, hw⟩ := List.mem_flatMap.1 hq
      have hpath := hp s (List.mem_cons_of_mem _ hs)
      cases s with
      | dir => cases hw
      | file => rwa [List.mem_singleton.1 hw]
    rw [hdisk]
    intro s hs
    rcases List.mem_cons.1 hs with rfl | hs
    · have hnow := holds_of_perform (hp s List.mem_cons_self) hstep
      exact holds_of_rewrites hd' (performAll_linkFree hd' steps) (hp s List.mem_cons_self) habsolute
        (fun p hp q hq => hother _ (List.mem_map_of_mem hp) _ (List.mem_map_of_mem hq))
        (performAll_rewrites steps d') hnow
    · exact ih hd' (fun s hs => hp s (List.mem_cons_of_mem _ hs)) hrest hlater s hs

theorem performAll_of_holds (h : ∀ step ∈ steps, step.Holds d) :
    performAll steps d = ⟨d, steps, none⟩ := by
  induction steps with
  | nil => rfl
  | cons step steps ih =>
    have hrest := ih fun s hs => h s (List.mem_cons_of_mem _ hs)
    rw [performAll, perform_of_holds (h step List.mem_cons_self)]
    simp only [hrest]

/-! ## Where the parts are -/

variable {root : Path} {ns : String} {options : SkeletonOptions}

/-- The three files of a datapack are at three places. -/
theorem nodup_written (root : Path) (options : SkeletonOptions) :
    (((plan root options).flatMap written).map (Path.fold ·.names)).Nodup := by
  have hwritten : (plan root options).flatMap written =
      [root.child "pack.mcmeta", (tagDirectory root).child "tick.json",
        (tagDirectory root).child "load.json"] := rfl
  rw [hwritten, List.map_cons, List.map_cons, List.map_cons, List.map_nil, fold_part (by decide),
    fold_part (by decide), fold_part (by decide), fold_tagDirectory]
  simp

theorem layOut_eq (root : Path) (options : SkeletonOptions) (d : Disk) :
    layOut root options d = performAll (plan root options) d := by
  unfold layOut
  rfl

/-- However far it gets, only the three files of the skeleton are written where one was. -/
theorem layOut_rewrites (root : Path) (options : SkeletonOptions) (d : Disk) :
    d.Rewrites [(Skeleton.at root options.ns).packMeta, (Skeleton.at root options.ns).tickTag,
      (Skeleton.at root options.ns).loadTag] (layOut root options d).disk := by
  rw [layOut_eq]
  exact performAll_rewrites (plan root options) d

theorem layOut_holds (hd : d.tree.LinkFree) (hr : root.isAbsolute = true)
    (hns : Path.IsStretch options.ns) (h : (layOut root options d).error = none) :
    ∀ step ∈ plan root options, step.Holds (layOut root options d).disk := by
  rw [layOut_eq] at h ⊢
  exact performAll_holds hd (fun _ hs => isAbsolute_plan hr hns hs) (nodup_written root options) h

theorem layOut_of_holds (h : ∀ step ∈ plan root options, step.Holds d) :
    layOut root options d = ⟨d, plan root options, none⟩ := by
  rw [layOut_eq, performAll_of_holds h]

theorem read_of_holds {p : Path} {text : String} (h : (LayoutStep.file p text).Holds d) :
    d.read p = .ok text.toUTF8 := by
  obtain ⟨place, he, hfile⟩ := h
  exact Disk.read_of_find (Disk.find_of_ensureFile he).1 hfile

end Skeleton

/-! ## The session that lays it out -/

namespace World

open Skeleton

variable {w : World} {ns : String} {format description : Option String} {options : SkeletonOptions}

def laidOut (w : World) (options : SkeletonOptions) : World :=
  let s := Skeleton.at w.session.anchors.cwd options.ns
  { disk := (Skeleton.layOut s.root options w.disk).disk
    session := { w.session with anchors := ⟨s.functions, some s.root, some s.home⟩, ns := options.ns } }

theorem layOut_of_error {e : SkeletonError}
    (h : (Skeleton.layOut w.session.anchors.cwd options w.disk).error = some e) :
    (w.layOut options).2 = .error e ∧
      (w.layOut options).1.1 = { w with disk := (Skeleton.layOut w.session.anchors.cwd options w.disk).disk } := by
  unfold World.layOut
  simp only [h, and_self]

theorem layOut_of_none (h : (Skeleton.layOut w.session.anchors.cwd options w.disk).error = none) :
    ∃ notes, w.layOut options =
      ((w.laidOut options, notes), .ok (Skeleton.at w.session.anchors.cwd options.ns)) := by
  unfold World.layOut
  simp only [h]
  exact ⟨_, rfl⟩

/-- Once laid out, a datapack is laid out again without anything being changed. -/
theorem layOut_laidOut (hholds : ∀ step ∈ plan w.session.anchors.cwd options,
      step.Holds (w.laidOut options).disk) :
    ∃ notes, { w.laidOut options with session.anchors.cwd := w.session.anchors.cwd }.layOut options =
      ((w.laidOut options, notes), .ok (Skeleton.at w.session.anchors.cwd options.ns)) := by
  let back : World := { w.laidOut options with session.anchors.cwd := w.session.anchors.cwd }
  have hagain : Skeleton.layOut back.session.anchors.cwd options back.disk =
      ⟨(w.laidOut options).disk, plan w.session.anchors.cwd options, none⟩ :=
    Skeleton.layOut_of_holds hholds
  obtain ⟨notes, hnotes⟩ := layOut_of_none (w := back) (by rw [hagain])
  have hdisk : (back.laidOut options).disk = (w.laidOut options).disk := by
    show (Skeleton.layOut back.session.anchors.cwd options back.disk).disk = _
    rw [hagain]
  have hsame : back.laidOut options = w.laidOut options :=
    congrArg (World.mk · (w.laidOut options).session) hdisk
  rw [hsame] at hnotes
  exact ⟨notes, hnotes⟩

theorem disk_layOut :
    (w.layOut options).1.1.disk = (Skeleton.layOut w.session.anchors.cwd options w.disk).disk := by
  cases he : (Skeleton.layOut w.session.anchors.cwd options w.disk).error with
  | some e => rw [(layOut_of_error he).2]
  | none =>
    obtain ⟨notes, hlaid⟩ := layOut_of_none he
    rw [hlaid]
    rfl

theorem session_of_layOut_error {e : SkeletonError} (h : (w.layOut options).2 = .error e) :
    (w.layOut options).1.1.session = w.session := by
  cases he : (Skeleton.layOut w.session.anchors.cwd options w.disk).error with
  | some e => rw [(layOut_of_error he).2]
  | none =>
    obtain ⟨notes, hlaid⟩ := layOut_of_none he
    rw [hlaid] at h
    cases h

/-- What was laid out without a failure stands. -/
theorem stands_of_layOut (hd : w.disk.tree.LinkFree) (hc : w.session.anchors.cwd.isAbsolute = true)
    (hns : Path.IsStretch options.ns) {made : Skeleton} (h : (w.layOut options).2 = .ok made) :
    made = Skeleton.at w.session.anchors.cwd options.ns ∧ (w.layOut options).1.1 = w.laidOut options ∧
      (w.laidOut options).disk.tree.LinkFree ∧
      ∀ step ∈ plan w.session.anchors.cwd options, step.Holds (w.laidOut options).disk := by
  cases he : (Skeleton.layOut w.session.anchors.cwd options w.disk).error with
  | some e =>
    rw [(layOut_of_error he).1] at h
    cases h
  | none =>
    obtain ⟨notes, hlaid⟩ := layOut_of_none he
    rw [hlaid] at h ⊢
    cases h
    have hfree := performAll_linkFree hd (plan w.session.anchors.cwd options)
    rw [← layOut_eq] at hfree
    exact ⟨rfl, rfl, hfree, Skeleton.layOut_holds hd hc hns he⟩

/-- So its home and its functions are there. -/
theorem isDir_of_stands {root : Path} {d : Disk} (hd : d.tree.LinkFree) (hr : root.isAbsolute = true)
    (hns : Path.IsStretch options.ns) (h : ∀ step ∈ plan root options, step.Holds d) :
    d.isDir (Skeleton.at root options.ns).home = true ∧
      d.isDir (Skeleton.at root options.ns).functions = true := by
  have hfunctions : d.isDir (Skeleton.at root options.ns).functions = true :=
    h (.dir (Skeleton.at root options.ns).functions) (List.mem_cons_of_mem _ List.mem_cons_self)
  exact ⟨Disk.isDir_of_child hd (isAbsolute_home hns hr) (isStretch_part "functions" (by decide))
    hfunctions, hfunctions⟩

def atLocation (cwd : Path) : World :=
  let t := ((FileTree.empty.add [] "p" .dir).add ["p"] "q" .dir).add ["p"] "pack.mcmeta" (.file .empty)
  { disk := ⟨t, ⟨[], 0⟩⟩, session := .begin cwd none }

theorem linkFree_atLocation (cwd : Path) : (atLocation cwd).disk.tree.LinkFree := by
  refine FileTree.LinkFree.add ?_ _ _ (by simp)
  exact (FileTree.linkFree_empty.add [] "p" (by simp)).add ["p"] "q" (by simp)

def atDetour : World := atLocation ⟨"/p/q/.."⟩

end World

end Datapack
