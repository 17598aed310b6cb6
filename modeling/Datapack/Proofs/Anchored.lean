import Datapack.Proofs.Effects

/-
  Datapack.Proofs.Anchored — the anchors of a session stay under its top directory.

  A session begins with its working location and its root at one path, the top. From
  there a line may move the working location, name another home, and, by laying out a
  datapack, move the root to the working location, the home and the working location
  below that. Folded, the root stays at the top or below it, the working location and
  the home stay at the root or below it, and whatever is open lies at the top or below
  it (`Session.Anchored`), on whatever disk a line happens to work.

  A directive keeps that in three parts: the root with what hangs on it (`root_of_does`),
  the anchors being absolute, and the stack of open files. `anchors_stay_under_top` is
  the outcome for every state that lines can lead to.
-/

namespace Datapack

open Script

/-! ## The invariant -/

/-- Where the paths of a session lie, folded. -/
structure Session.Anchored (top : Path) (s : Session) : Prop where
  root : ∃ r, s.anchors.root = some r ∧ Path.fold top.names <+: Path.fold r.names ∧
    Path.fold r.names <+: Path.fold s.anchors.cwd.names ∧
    ∀ h ∈ s.anchors.home, Path.fold r.names <+: Path.fold h.names
  absolute : s.anchors.Absolute
  files : ∀ p ∈ s.files, p.IsCanonical ∧ Path.fold top.names <+: p.names

namespace Session.Anchored

variable {top : Path}

theorem begin {top : Path} (h : top.isAbsolute = true) :
    (Session.begin top (some top)).Anchored top where
  root := ⟨top, rfl, List.prefix_refl _, List.prefix_refl _, by intro _ h; cases h⟩
  absolute := ⟨h, fun _ hr => by cases hr; exact h, fun _ hh => by cases hh⟩
  files := fun _ hp => by cases hp

/-- What a path argument leads to lies under the root. -/
theorem resolve {w : World} (hs : w.session.Anchored top) {raw : String} {wanted : Wanted}
    {p : Path} (h : (w.resolve raw wanted).path? = some p) :
    p.IsCanonical ∧ ∀ r, w.session.anchors.root = some r → Path.fold r.names <+: p.names := by
  obtain ⟨hp, r, hr, hpre⟩ := Anchors.inside_of_resolve hs.absolute h
  refine ⟨hp, ?_⟩
  intro r' hr'
  rw [hr] at hr'
  cases hr'
  exact hpre

/-- The home and the working location keep to the root, or move with it. -/
theorem root_of_does {w w' : World} {d : Directive} {kinds : List DiagnosticKind}
    (hs : w.session.Anchored top) (h : w.Does d w' kinds) :
    ∃ r, w'.session.anchors.root = some r ∧ Path.fold top.names <+: Path.fold r.names ∧
      Path.fold r.names <+: Path.fold w'.session.anchors.cwd.names ∧
      ∀ h ∈ w'.session.anchors.home, Path.fold r.names <+: Path.fold h.names := by
  obtain ⟨r, hr, htop, hcwd, hhome⟩ := hs.root
  have found : ∀ {raw : String} {p : Path}, w.resolve raw .dir = .present p →
      Path.fold r.names <+: Path.fold p.names := by
    intro raw p hp
    obtain ⟨hcanonical, hin⟩ := hs.resolve (World.resolve_path?_of_present hp)
    rw [hcanonical.fold_names]
    exact hin r hr
  cases h with
  | skipped | rootUnset | initFailed | mkdir | mkdirFailed | rmdir | clear | «open» | openFailed
    | close | del | log => exact hs.root
  | root hr' _ =>
    rw [hr] at hr'
    cases hr'
    exact ⟨r, hr, htop, List.prefix_refl _, hhome⟩
  | home hh _ => exact ⟨r, hr, htop, hhome _ hh, hhome⟩
  | sethomeHere _ =>
    refine ⟨r, hr, htop, hcwd, ?_⟩
    intro h hh
    cases hh
    exact hcwd
  | sethome hp =>
    refine ⟨r, hr, htop, hcwd, ?_⟩
    intro h hh
    cases hh
    exact found hp
  | cd hp => exact ⟨r, hr, htop, found hp, hhome⟩
  | init ho _ =>
    obtain ⟨rfl, hns⟩ := isNamespace_of_ofArguments ho
    have hstretch := isStretch_of_isNamespace hns
    refine ⟨w.session.anchors.cwd, rfl, htop.trans hcwd, Skeleton.prefix_fold_functions hstretch, ?_⟩
    intro h hh
    cases hh
    exact Skeleton.prefix_fold_home hstretch

theorem does {w w' : World} {d : Directive} {kinds : List DiagnosticKind}
    (hs : w.session.Anchored top) (h : w.Does d w' kinds) : w'.session.Anchored top := by
  refine ⟨hs.root_of_does h, h.absolute hs.absolute, ?_⟩
  intro q hq
  rcases h.files with hf | ⟨raw, p, hp, hf⟩
  · exact hs.files q (hf q hq)
  · rw [hf] at hq
    rcases List.mem_cons.1 hq with rfl | hq
    · obtain ⟨r, hr, htop, _⟩ := hs.root
      obtain ⟨hcanonical, hin⟩ := hs.resolve hp
      exact ⟨hcanonical, htop.trans (hin r hr)⟩
    · exact hs.files q hq

theorem executeLine {w : World} (hs : w.session.Anchored top) (line : String) :
    (w.executeLine line).1.session.Anchored top := by
  rcases w.executeLine_cases line with ⟨_, h⟩ | ⟨d, kinds, _, h⟩ | ⟨text, _, h⟩
  · rw [h]; exact hs
  · exact hs.does h
  · rw [h]
    rcases w.writeText_cases text with h | ⟨p, d, _, _, _, h⟩
    · rw [h]; exact hs
    · rw [h]; exact hs

end Session.Anchored

/-- The states that a session can be in when each line may meet any disk at all: what
others do between the lines is not known. -/
inductive Session.Reachable (top : Path) : Session → Prop
  | begin : Reachable top (Session.begin top (some top))
  | line {s : Session} (d : Disk) (n : Nat) (line : String) : Reachable top s →
      Reachable top ((⟨d, { s with line := n }⟩ : World).executeLine line).1.session

theorem anchored_of_reachable {top : Path} (htop : top.isAbsolute = true) {s : Session}
    (h : Session.Reachable top s) : s.Anchored top := by
  induction h with
  | begin => exact Session.Anchored.begin htop
  | @line s d n line _ ih =>
    have hn : Session.Anchored top { s with line := n } := ⟨ih.root, ih.absolute, ih.files⟩
    exact Session.Anchored.executeLine (w := ⟨d, { s with line := n }⟩) hn line

/-- At every moment the root is set and lies, folded, at the top or below it, the working
location and the home at the root or below it, and what is open at the top or below it. -/
theorem anchors_stay_under_top {top : Path} (htop : top.isAbsolute = true) {s : Session}
    (h : Session.Reachable top s) :
    (∃ r, s.anchors.root = some r ∧ r.normalize.isUnder top.normalize = true ∧
      s.anchors.cwd.normalize.isUnder r.normalize = true ∧
      ∀ home ∈ s.anchors.home, home.normalize.isUnder r.normalize = true) ∧
    ∀ p ∈ s.files, p.isAbsolute = true ∧ Path.Clean p.components ∧
      p.isUnder top.normalize = true := by
  have hs := anchored_of_reachable htop h
  have under : ∀ {p q : Path}, p.isAbsolute = true → q.isAbsolute = true →
      Path.fold q.names <+: Path.fold p.names → p.normalize.isUnder q.normalize = true := by
    intro p q hp hq hpre
    rw [Path.isUnder_iff (by simpa using hp) (by simpa using hq)]
    simpa using hpre
  obtain ⟨r, hr, hrtop, hcwd, hhome⟩ := hs.root
  have hrabs := hs.absolute.root r hr
  refine ⟨⟨r, hr, under hrabs htop hrtop, under hs.absolute.cwd hrabs hcwd, fun home hh =>
    under (hs.absolute.home home hh) hrabs (hhome home hh)⟩, fun p hp => ?_⟩
  obtain ⟨hcan, hpre⟩ := hs.files p hp
  refine ⟨hcan.isAbsolute, hcan.clean_components, ?_⟩
  rw [Path.isUnder_iff hcan.isAbsolute (by simpa using htop)]
  simpa using hpre

/-- From a top that is not folded itself: what is open afterwards is. -/
theorem anchors_stay_under_top_open :
    let top : Path := ⟨"/q/../p"⟩
    let d : Disk := ⟨FileTree.empty.add [] "p" .dir, ⟨[], 0⟩⟩
    let s := ((⟨d, { Session.begin top (some top) with line := 1 }⟩ : World).executeLine
      "#> open a/../b").1.session
    top.isAbsolute = true ∧ Session.Reachable top s ∧ s.files = [⟨"/p/b"⟩] ∧
      ∀ p ∈ s.files, p.isUnder top.normalize = true := by
  intro top d s
  have htop : top.isAbsolute = true := by decide +kernel
  have h : Session.Reachable top s := .line d 1 "#> open a/../b" .begin
  exact ⟨htop, h, by decide +kernel, fun p hp => ((anchors_stay_under_top htop h).2 p hp).2.2⟩

end Datapack
