import Datapack.Build
import Datapack.Proofs.Locality

/-
  Datapack.Proofs.Swapping — jobs that keep apart can be done in either order.

  A job that is built without packing reads its script, makes the directories along its
  output directory, and changes nothing but what lies in there (`Job.Done`). What it comes to
  depends on the script, on whether the way to the output directory is clear, and on what lies
  in it (`build_congr`). If two jobs keep out of each other's output directories and scripts
  (`Job.Apart`), the one leaves all of that as it was for the other. The directories above may
  well be common to both, whoever comes first makes them.

  `buildAll_swap` is the outcome: in the other order the batch ends well too, with the same
  results and the same tree.
-/

namespace Datapack

/-! ## Scripts -/

theorem Path.IsClean.along {p : Path} (hp : p.IsClean) : p.Along p.names := by
  refine ⟨hp.isAbsolute, fun names hn => .inl ?_⟩
  rw [fold_of_clean fun name hm => hp.clean name (hn.subset hm)]
  exact hn

namespace Disk

variable {d e : Disk} {p : Path} {bytes : ByteArray}

theorem get?_of_read (hd : d.tree.LinkFree) (hp : p.IsClean) (h : d.read p = .ok bytes) :
    d.tree.get? p.names = some (.file bytes) := by
  unfold Disk.read at h
  split at h
  · rename_i hn
    cases h
    have hget := node_of_linkFree hd hp.isAbsolute hn
    rw [Path.fold_of_clean hp.clean] at hget
    exact hget
  · cases h
  · cases h

/-- Above a file stand directories, and below it stands nothing. -/
theorem Twin.of_file {place : Place} (hd : d.tree.LinkFree) (he : e.tree.LinkFree)
    (h : d.tree.get? place = some (.file bytes)) (h' : e.tree.get? place = some (.file bytes)) :
    d.Twin place e := by
  have above : ∀ {t : FileTree} {q : Place}, t.get? place = some (.file bytes) → q <+: place →
      q ≠ place → t.get? q = some .dir := by
    intro t q ht hq hne
    exact FileTree.get?_of_prefix (by rw [ht]; simp) hq hne
  have below : ∀ {t : FileTree} {q : Place}, t.get? place = some (.file bytes) → place <+: q →
      place ≠ q → t.get? q = none := by
    intro t q ht hq hne
    apply Classical.byContradiction
    intro hsome
    rw [FileTree.get?_of_prefix hsome hq hne] at ht
    cases ht
  refine ⟨hd, he, ?_⟩
  intro q hq
  by_cases hne : q = place
  · rw [hne, h, h']
  · rcases hq with hq | hq
    · rw [above h hq hne, above h' hq hne]
    · rw [below h hq (Ne.symm hne), below h' hq (Ne.symm hne)]

/-- A script is read by what stands at its place. -/
theorem read_of_get? (hd : d.tree.LinkFree) (he : e.tree.LinkFree) (hp : p.IsClean)
    (h : d.read p = .ok bytes) (hsame : e.tree.get? p.names = d.tree.get? p.names) :
    e.read p = .ok bytes := by
  have hfile := get?_of_read hd hp h
  have htwin : d.Twin p.names e := .of_file hd he hfile (hsame.trans hfile)
  unfold Disk.read at h ⊢
  rw [← htwin.node hp.along]
  exact h

end Disk

/-! ## Output directories -/

namespace Job

variable {job : Job} {d d' e : Disk}

/-- All paths are clean, and nothing is packed. -/
structure Plain (job : Job) : Prop where
  source : job.source.IsClean
  outputRoot : ∀ root ∈ job.outputRoot, root.IsClean
  unpacked : job.wantsPackage = false

theorem Plain.isClean_requestedRoot (h : job.Plain) (hne : job.source.names ≠ []) :
    job.requestedRoot.IsClean := by
  unfold requestedRoot
  cases hr : job.outputRoot with
  | some root => exact h.outputRoot root hr
  | none =>
    rcases h.source.parent?_cases with ⟨hnil, _⟩ | ⟨q, hq, _, hclean, _⟩
    · exact absurd hnil hne
    · rw [hq]
      have htext := Path.text_ne_empty hclean.isAbsolute
      simp only
      split
      · rename_i he
        cases he
        exact absurd rfl htext
      · rename_i he
        cases he
      · rename_i he
        cases he
        exact hclean

def canonicalRoot (job : Job) : Except BuildError Path :=
  if maxPathBytes < (Path.ofPlace job.requestedRoot.names).text.utf8ByteSize then
    .error (.outputRoot job.requestedRoot .nameTooLong)
  else .ok (Path.ofPlace job.requestedRoot.names)

theorem canonicalRoot_ok {root : Path} (hp : job.requestedRoot.IsClean)
    (h : job.canonicalRoot = .ok root) :
    root.IsCanonical ∧ root.names = job.requestedRoot.names := by
  have hnames : (Path.ofPlace job.requestedRoot.names).names = job.requestedRoot.names :=
    Path.names_ofPlace fun _ => Path.isStretch_of_mem_names
  unfold canonicalRoot at h
  split at h
  · cases h
  · cases h
    refine ⟨⟨by rw [hnames], ?_⟩, hnames⟩
    rw [hnames]
    exact hp.clean

theorem prepareRoot_of_clears (hd : d.tree.LinkFree) (hp : job.requestedRoot.IsClean)
    (h : d.Clears job.requestedRoot) :
    ∃ e, job.prepareRoot d = (e, job.canonicalRoot) ∧ d.Paved job.requestedRoot.names e := by
  obtain ⟨e, hmade, hpaved⟩ := Disk.makeDirs_of_clears hd hp h
  refine ⟨e, ?_, hpaved⟩
  have hdir : e.tree.get? job.requestedRoot.names = some .dir := by
    rw [hpaved, if_pos (List.prefix_refl _)]
  unfold prepareRoot canonicalRoot
  simp only [hmade, Disk.canonical_of_isDir hp h.nul h.text hdir]
  split
  · rename_i hroot
    split at hroot <;> cases hroot
    rw [if_neg ‹_›]
  · rename_i hroot
    split at hroot <;> cases hroot
    rw [if_pos ‹_›]

theorem clears_of_prepareRoot (hd : d.tree.LinkFree) (hp : job.requestedRoot.IsClean) {root : Path}
    (h : job.prepareRoot d = (e, .ok root)) : d.Clears job.requestedRoot := by
  refine Disk.clears_of_makeDirs hd hp ?_
  unfold prepareRoot at h
  simp only at h
  split at h
  · cases h
  · rename_i hmade
    rw [hmade]

/-! ## One job -/

theorem confined_start {root : Path} (hroot : root.IsCanonical) (hd : d.tree.LinkFree)
    (replaced : Option Nat) : World.Confined root.names d.tree
      (World.noteReplacement ⟨d, .begin root (some root)⟩ replaced).1 := by
  have hw : World.Confined root.names d.tree ⟨d, .begin root (some root)⟩ := .begin hd hroot
  cases replaced with
  | none => exact hw
  | some line => exact ⟨hw.disk, hw.anchors, hw.files⟩

theorem twin_start {place : Place} (h : d.Twin place e) (root : Path) (replaced : Option Nat) :
    (World.noteReplacement ⟨d, .begin root (some root)⟩ replaced).1.Twin place
        (World.noteReplacement ⟨e, .begin root (some root)⟩ replaced).1 ∧
      (World.noteReplacement ⟨d, .begin root (some root)⟩ replaced).2 =
        (World.noteReplacement ⟨e, .begin root (some root)⟩ replaced).2 := by
  cases replaced with
  | none => exact ⟨⟨h, rfl⟩, rfl⟩
  | some line => exact ⟨⟨h, rfl⟩, rfl⟩

/-- A script does the same on disks that are twins at its output directory. -/
theorem executeIn_twin {root : Path} (hjob : job.wantsPackage = false) (hroot : root.IsCanonical)
    (hdir : d.tree.isDir root.names = true) (h : d.Twin root.names e)
    (source : String × Option Nat) :
    (job.executeIn d root source).disk.Twin root.names (job.executeIn e root source).disk ∧
      (job.executeIn d root source).events = (job.executeIn e root source).events ∧
      (job.executeIn d root source).result = (job.executeIn e root source).result := by
  obtain ⟨hstart, hfirst⟩ := twin_start h root source.2
  obtain ⟨hlast, hlater⟩ :=
    hstart.run hdir (confined_start hroot h.left source.2) source.1
  unfold executeIn pack
  simp only [hjob, hfirst, hlater, hlast.session]
  exact ⟨hlast.disk, rfl, rfl⟩

/-- A script changes nothing outside its output directory, and leaves no file in its place. -/
theorem executeIn_keeps {root : Path} (hjob : job.wantsPackage = false) (hroot : root.IsCanonical)
    (hd : d.tree.LinkFree) (hdir : d.tree.get? root.names = some .dir)
    (source : String × Option Nat) :
    (job.executeIn d root source).disk.AgreesOutside root.names d.tree ∧
      (job.executeIn d root source).disk.NoFileAt root.names := by
  have hisDir : d.tree.isDir root.names = true := by simp [FileTree.isDir, hdir]
  have hstart := confined_start hroot hd source.2
  have hdisk : (World.noteReplacement ⟨d, .begin root (some root)⟩ source.2).1.disk = d := by
    cases source.2 <;> rfl
  have hnoFile : (World.noteReplacement ⟨d, .begin root (some root)⟩ source.2).1.disk.NoFileAt
      root.names := by
    rw [hdisk]
    exact ⟨hd, by rw [hdir]; simp⟩
  have hlast := (hstart.run hisDir source.1).disk
  have htop := hstart.run_noFile hisDir hnoFile source.1
  unfold executeIn pack
  simp only [hjob]
  exact ⟨hlast, htop⟩

theorem isClean_requestedRoot_of_read (hjob : job.Plain) (hd : d.tree.LinkFree) {bytes : ByteArray}
    (h : d.read job.source = .ok bytes) : job.requestedRoot.IsClean := by
  refine hjob.isClean_requestedRoot fun hnil => ?_
  have hfile := Disk.get?_of_read hd hjob.source h
  rw [hnil, FileTree.get?_root] at hfile
  cases hfile

/-- The steps of a job that was built: the script is read, the way to the output directory is
clear, and the script is executed there. -/
theorem build_ok (hjob : job.Plain) (hd : d.tree.LinkFree) {events : List Log.Event} {built : Built}
    (h : job.build d = ⟨d', events, .ok built⟩) : ∃ bytes e root,
      d.read job.source = .ok bytes ∧ job.requestedRoot.IsClean ∧ d.Clears job.requestedRoot ∧
      d.Paved job.requestedRoot.names e ∧ job.canonicalRoot = .ok root ∧
      job.executeIn e root (decodeSource bytes) = ⟨d', events, .ok built⟩ := by
  unfold build at h
  split at h
  · cases h
  · rename_i bytes hread
    split at h
    · cases h
    · rename_i e root hprepared
      have hp := isClean_requestedRoot_of_read hjob hd hread
      have hclears := clears_of_prepareRoot hd hp hprepared
      obtain ⟨e', hmade, hpaved⟩ := prepareRoot_of_clears hd hp hclears
      rw [hprepared] at hmade
      obtain ⟨rfl, hroot⟩ := Prod.mk.inj hmade
      exact ⟨bytes, e, root, hread, hp, hclears, hpaved, hroot.symm, h⟩

structure Done (job : Job) (d d' : Disk) : Prop where
  source : ∃ bytes, d.tree.get? job.source.names = some (.file bytes)
  /-- Nothing but directories stood along the output directory. -/
  way : ∀ q, q <+: job.requestedRoot.names → d.tree.get? q = none ∨ d.tree.get? q = some .dir
  /-- They have been made, as far as they were missing; what is in the last of them may be
  anything now, and nothing else has changed. -/
  outside : ∀ q, ¬job.requestedRoot.names <+: q → d'.tree.get? q =
    if q <+: job.requestedRoot.names then some .dir else d.tree.get? q
  top : d'.NoFileAt job.requestedRoot.names

theorem done_of_build (hjob : job.Plain) (hd : d.tree.LinkFree) {events : List Log.Event}
    {built : Built} (h : job.build d = ⟨d', events, .ok built⟩) : job.Done d d' := by
  obtain ⟨bytes, e, root, hread, hp, hclears, hpaved, hroot, hrun⟩ := build_ok hjob hd h
  obtain ⟨hcanonical, hnames⟩ := canonicalRoot_ok hp hroot
  have hlinks := hpaved.linkFree hd
  have hdir : e.tree.get? root.names = some .dir := by
    rw [hnames, hpaved, if_pos (List.prefix_refl _)]
  obtain ⟨hout, htop⟩ :=
    executeIn_keeps hjob.unpacked hcanonical hlinks hdir (decodeSource bytes)
  rw [hrun, hnames] at hout htop
  exact ⟨⟨bytes, Disk.get?_of_read hd hjob.source hread⟩, hclears.way, fun q hq => by
    rw [hout.outside q hq, hpaved q], htop⟩

/-- A job that can be built on a disk can be built on another, with the same result, if the
script is the same, nothing is in the way of the output directory, and the same is in it. -/
theorem build_congr {d₂ : Disk} (hjob : job.Plain) (hd : d.tree.LinkFree) (hd₂ : d₂.tree.LinkFree)
    {events : List Log.Event} {built : Built} (h : job.build d = ⟨d', events, .ok built⟩)
    (hsource : d₂.tree.get? job.source.names = d.tree.get? job.source.names)
    (hway : ∀ q, q <+: job.requestedRoot.names →
      d₂.tree.get? q = none ∨ d₂.tree.get? q = some .dir)
    (hinside : ∀ q, job.requestedRoot.names <+: q → q ≠ job.requestedRoot.names →
      d₂.tree.get? q = d.tree.get? q) :
    ∃ e', job.build d₂ = ⟨e', events, .ok built⟩ ∧ d'.Twin job.requestedRoot.names e' := by
  obtain ⟨bytes, e, root, hread, hp, hclears, hpaved, hroot, hrun⟩ := build_ok hjob hd h
  obtain ⟨hcanonical, hnames⟩ := canonicalRoot_ok hp hroot
  have hread₂ := Disk.read_of_get? hd hd₂ hjob.source hread hsource
  obtain ⟨e₂, hmade₂, hpaved₂⟩ :=
    prepareRoot_of_clears hd₂ hp ⟨hclears.nul, hclears.text, hclears.short, hway⟩
  have htwin : e.Twin root.names e₂ := by
    rw [hnames]
    exact .of_paved hd hd₂ (fun q hin hne => (hinside q hin hne).symm) hpaved hpaved₂
  have hdir : e.tree.isDir root.names = true := by
    simp [FileTree.isDir, hnames, hpaved job.requestedRoot.names]
  obtain ⟨hdisk, hevents, hresult⟩ :=
    executeIn_twin hjob.unpacked hcanonical hdir htwin (decodeSource bytes)
  rw [hrun] at hdisk hevents hresult
  have hbuild : job.build d₂ = job.executeIn e₂ root (decodeSource bytes) := by
    unfold build
    simp only [hread₂, hmade₂, hroot]
  rw [hbuild]
  generalize job.executeIn e₂ root (decodeSource bytes) = outcome at hdisk hevents hresult
  obtain ⟨e', told, result⟩ := outcome
  obtain rfl : events = told := hevents
  obtain rfl : Except.ok built = result := hresult
  exact ⟨e', rfl, hnames ▸ hdisk⟩

/-! ## Two jobs -/

/-- The job `b` keeps out of the output directory of `a`: neither is its own that one or in
it, nor does its script lie there. -/
structure Apart (a b : Job) : Prop where
  roots : ¬a.requestedRoot.names <+: b.requestedRoot.names
  source : ¬(a.requestedRoot.names <+: b.source.names ∧
    a.requestedRoot.names ≠ b.source.names)

variable {a b : Job}

/-- Two output directories, neither in the other, have nothing in them that is common to both. -/
theorem Apart.not_within (hab : a.Apart b) (hba : b.Apart a) {q : Place}
    (ha : a.requestedRoot.names <+: q) : ¬b.requestedRoot.names <+: q := by
  intro hb
  rcases List.prefix_or_prefix_of_prefix ha hb with h | h
  · exact hab.roots h
  · exact hba.roots h

/-- What is in the output directory of `b` does not stand along that of `a`. -/
theorem Apart.not_along (hba : b.Apart a) {q : Place} (hb : b.requestedRoot.names <+: q) :
    ¬q <+: a.requestedRoot.names := fun ha => hba.roots (hb.trans ha)

/-- A job that was built after another can be built without it. -/
theorem build_before {d₁ d₂ : Disk} (hb : b.Plain) (hab : a.Apart b) (hba : b.Apart a)
    (hd : d.tree.LinkFree) (ha : a.Done d d₁) {events : List Log.Event} {built : Built}
    (h : b.build d₁ = ⟨d₂, events, .ok built⟩) :
    ∃ e, b.build d = ⟨e, events, .ok built⟩ ∧ d₂.Twin b.requestedRoot.names e := by
  have hdone := done_of_build hb ha.top.linkFree h
  refine build_congr hb ha.top.linkFree hd h ?_ ?_ ?_
  · obtain ⟨bytes, hfile⟩ := hdone.source
    -- The script of `b` is not in the output directory of `a`, and not in place of it either.
    have hout : ¬a.requestedRoot.names <+: b.source.names := by
      intro hin
      refine hab.source ⟨hin, ?_⟩
      intro he
      rw [← he] at hfile
      exact ha.top.noFile bytes hfile
    rw [ha.outside _ hout] at hfile ⊢
    split at hfile
    · cases hfile
    · rw [if_neg ‹_›]
  · intro q hq
    by_cases halong : q <+: a.requestedRoot.names
    · exact ha.way q halong
    · have hout : ¬a.requestedRoot.names <+: q := fun hin => hab.roots (hin.trans hq)
      have hway := hdone.way q hq
      rw [ha.outside q hout, if_neg halong] at hway
      exact hway
  · intro q hq _
    rw [ha.outside q fun hin => hab.not_within hba hin hq, if_neg (hba.not_along hq)]

/-- A job that can be built can be built after another. -/
theorem build_after {d₁ e : Disk} (ha : a.Plain) (hab : a.Apart b) (hba : b.Apart a)
    (hd : d.tree.LinkFree) (hb : b.Done d e) {events : List Log.Event} {built : Built}
    (h : a.build d = ⟨d₁, events, .ok built⟩) :
    ∃ e', a.build e = ⟨e', events, .ok built⟩ ∧ d₁.Twin a.requestedRoot.names e' := by
  have hdone := done_of_build ha hd h
  refine build_congr ha hd hb.top.linkFree h ?_ ?_ ?_
  · obtain ⟨bytes, hfile⟩ := hdone.source
    -- Where the output directory of `b` was to be made, no script was in the way.
    have halong : ¬a.source.names <+: b.requestedRoot.names := by
      intro hin
      rcases hb.way _ hin with hnone | hdir
      · rw [hnone] at hfile
        cases hfile
      · rw [hdir] at hfile
        cases hfile
    have hout : ¬b.requestedRoot.names <+: a.source.names := by
      intro hin
      refine hba.source ⟨hin, ?_⟩
      intro he
      exact halong (he ▸ List.prefix_refl _)
    rw [hb.outside _ hout, if_neg halong]
  · intro q hq
    have hout : ¬b.requestedRoot.names <+: q := fun hin => hba.roots (hin.trans hq)
    rw [hb.outside q hout]
    split
    · exact .inr rfl
    · exact hdone.way q hq
  · intro q hq _
    rw [hb.outside q (hab.not_within hba hq), if_neg (hab.not_along hq)]

/-- In either order the directories along both output directories are made, and each script
has done its own. -/
theorem tree_eq_of_done {d₁ d₂ e₁ e₂ : Disk} (hab : a.Apart b) (hba : b.Apart a)
    (ha : a.Done d d₁) (hb : b.Done d₁ d₂) (hb' : b.Done d e₁) (ha' : a.Done e₁ e₂)
    (htwinB : d₂.Twin b.requestedRoot.names e₁) (htwinA : d₁.Twin a.requestedRoot.names e₂) :
    e₂.tree = d₂.tree := by
  apply FileTree.ext
  intro q
  by_cases hinA : a.requestedRoot.names <+: q
  · have houtB := hab.not_within hba hinA
    rw [← htwinA.same q (.inr hinA), hb.outside q houtB, if_neg (hab.not_along hinA)]
  by_cases hinB : b.requestedRoot.names <+: q
  · rw [ha'.outside q hinA, if_neg (hba.not_along hinB), htwinB.same q (.inr hinB)]
  · rw [ha'.outside q hinA, hb'.outside q hinB, hb.outside q hinB, ha.outside q hinA]
    split <;> split <;> rfl

end Job

theorem buildAll_pair {a b : Job} {d d₁ d₂ : Disk} {told told' : List Log.Event} {x y : Built}
    (ha : a.build d = ⟨d₁, told, .ok x⟩) (hb : b.build d₁ = ⟨d₂, told', .ok y⟩) :
    buildAll [a, b] d = ⟨d₂, told ++ told', [x, y], none⟩ := by
  simp only [buildAll, ha, hb, List.append_nil]

theorem pair_of_buildAll {a b : Job} {d : Disk} (h : (buildAll [a, b] d).error = none) :
    ∃ d₁ d₂ told told' x y, a.build d = ⟨d₁, told, .ok x⟩ ∧ b.build d₁ = ⟨d₂, told', .ok y⟩ := by
  simp only [buildAll] at h
  split at h
  · cases h
  · rename_i d₁ told x ha
    split at h
    · cases h
    · rename_i d₂ told' y hb
      exact ⟨d₁, d₂, told, told', x, y, ha, hb⟩

/-- Jobs that keep apart can change places: if the batch ends well, it ends well in the other
order, each job has the same result as before, and the tree is the same. -/
theorem buildAll_swap {a b : Job} {d : Disk} (hd : d.tree.LinkFree) (ha : a.Plain) (hb : b.Plain)
    (hab : a.Apart b) (hba : b.Apart a) (h : (buildAll [a, b] d).error = none) :
    (buildAll [b, a] d).error = none ∧
    (∃ x y, (buildAll [a, b] d).built = [x, y] ∧ (buildAll [b, a] d).built = [y, x]) ∧
    (buildAll [b, a] d).disk.tree = (buildAll [a, b] d).disk.tree := by
  obtain ⟨d₁, d₂, toldA, toldB, x, y, hbuildA, hbuildB⟩ := pair_of_buildAll h
  have hdoneA := Job.done_of_build ha hd hbuildA
  have hdoneB := Job.done_of_build hb hdoneA.top.linkFree hbuildB
  obtain ⟨e₁, hbuildB', htwinB⟩ := Job.build_before hb hab hba hd hdoneA hbuildB
  have hdoneB' := Job.done_of_build hb hd hbuildB'
  obtain ⟨e₂, hbuildA', htwinA⟩ := Job.build_after ha hab hba hd hdoneB' hbuildA
  have hdoneA' := Job.done_of_build ha hdoneB'.top.linkFree hbuildA'
  rw [buildAll_pair hbuildA hbuildB, buildAll_pair hbuildB' hbuildA']
  exact ⟨rfl, ⟨x, y, rfl, rfl⟩,
    Job.tree_eq_of_done hab hba hdoneA hdoneB hdoneB' hdoneA' htwinB htwinA⟩

/-- Either of the two makes the directory that both go to. -/
theorem buildAll_swap_shared_parent :
    let t := ((FileTree.empty.add [] "s" .dir).add ["s"] "a" (.file "#> open f\nx".toUTF8)).add
      ["s"] "b" (.file "#> mkdir g\n#> rmdir /".toUTF8)
    let d : Disk := ⟨t, ⟨[], 0⟩⟩
    let a : Job := ⟨⟨"/s/a"⟩, some ⟨"/o/a"⟩, false, none⟩
    let b : Job := ⟨⟨"/s/b"⟩, some ⟨"/o/b"⟩, false, none⟩
    (d.tree.LinkFree ∧ a.Plain ∧ b.Plain ∧ a.Apart b ∧ b.Apart a ∧
      (buildAll [a, b] d).error = none) ∧
    (buildAll [b, a] d).error = none ∧
    (buildAll [b, a] d).disk.tree.get? ["o", "a", "f"] = some (.file "x\n".toUTF8) := by
  intro t d a b
  have hl : t.LinkFree :=
    ((FileTree.linkFree_empty.add [] "s" (by simp)).add ["s"] "a" (by simp)).add ["s"] "b" (by simp)
  have hclean : ∀ p ∈ [a.source, b.source, ⟨"/o/a"⟩, ⟨"/o/b"⟩], p.IsClean := by
    have hnames : ∀ p ∈ [a.source, b.source, ⟨"/o/a"⟩, ⟨"/o/b"⟩],
        p.isAbsolute = true ∧ ∀ name ∈ p.names, name ≠ "." ∧ name ≠ ".." := by decide +kernel
    exact fun p hp => ⟨(hnames p hp).1, (hnames p hp).2⟩
  have ha : a.Plain := ⟨hclean _ (by simp), by rintro _ ⟨⟩; exact hclean _ (by simp), rfl⟩
  have hb : b.Plain := ⟨hclean _ (by simp), by rintro _ ⟨⟩; exact hclean _ (by simp), rfl⟩
  have hab : a.Apart b := ⟨by decide +kernel, by decide +kernel⟩
  have hba : b.Apart a := ⟨by decide +kernel, by decide +kernel⟩
  have hbuilt : (buildAll [a, b] d).error = none := by decide +kernel
  have hfile : (buildAll [a, b] d).disk.tree.get? ["o", "a", "f"] = some (.file "x\n".toUTF8) := by
    decide +kernel
  obtain ⟨herror, _, htree⟩ := buildAll_swap (d := d) hl ha hb hab hba hbuilt
  exact ⟨⟨hl, ha, hb, hab, hba, hbuilt⟩, herror, by rw [htree, hfile]⟩

end Datapack
