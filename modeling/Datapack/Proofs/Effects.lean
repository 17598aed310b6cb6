import Datapack.Execution
import Datapack.Proofs.Boundary
import Datapack.Proofs.Layout

/-
  Datapack.Proofs.Effects — all that one line can do.

  `Does w d w' kinds` says it for a directive: which call on the disk it comes to, with
  which path, what of the session changes, and the kinds of the diagnostics it gives.
  There is one case for each way through a directive, so that an invariant of runs needs
  one short case each and nobody takes `execute` apart again (`execute_does`). The session
  can be followed by itself: where its anchors come from (`Does.anchors_all`), and what
  gets on the stack of open files (`Does.files`).

  A content line either leaves the world alone or appends to the file on top
  (`writeText_cases`). `executeLine_cases` is both together, and what every line keeps, a
  run keeps (`runLines_keeps`).
-/

namespace Datapack

open Script

def diagnosticKinds (notes : List Note) : List DiagnosticKind :=
  notes.filterMap fun
    | .diagnostic kind _ => some kind
    | .event _ => none

namespace World

theorem resolve_path?_of_present {w : World} {raw : String} {wanted : Wanted} {p : Path}
    (h : w.resolve raw wanted = .present p) : (w.resolve raw wanted).path? = some p := by
  rw [h]; rfl

theorem resolve_path?_of_absent {w : World} {raw : String} {wanted : Wanted} {p : Path}
    (h : w.resolve raw wanted = .absent p) : (w.resolve raw wanted).path? = some p := by
  rw [h]; rfl

theorem isCanonical_of_resolve {w : World} (ha : w.session.anchors.Absolute) {raw : String}
    {wanted : Wanted} {p : Path} (h : (w.resolve raw wanted).path? = some p) : p.IsCanonical :=
  (Anchors.inside_of_resolve ha h).1

def layout (w : World) (options : SkeletonOptions) : Progress :=
  Skeleton.layOut w.session.anchors.cwd options w.disk

/-- The ways through a directive: the world after it, and the diagnostics it gives. -/
inductive Does (w : World) : Directive → World → List DiagnosticKind → Prop
  | skipped (d : Directive) : Does w d w [.skipped]
  | rootUnset : w.session.anchors.root = none → Does w .root w []
  | root {r : Path} : w.session.anchors.root = some r → w.disk.isDir r = true →
      Does w .root { w with session.anchors.cwd := r } []
  | home {h : Path} : w.session.anchors.home = some h → w.disk.isDir h = true →
      Does w .home { w with session.anchors.cwd := h } []
  | sethomeHere : w.disk.isDir w.session.anchors.cwd = true →
      Does w (.sethome none) { w with session.anchors.home := some w.session.anchors.cwd } []
  | sethome {raw : String} {p : Path} : w.resolve raw .dir = .present p →
      Does w (.sethome (some raw)) { w with session.anchors.home := some p } []
  | init {ns : String} {format description : Option String} {options : SkeletonOptions} :
      SkeletonOptions.ofArguments ns format description = .ok options →
      (w.layout options).error = none →
      Does w (.init ns format description)
        { disk := (w.layout options).disk
          session := { w.session with
            ns := options.ns
            anchors := ⟨(Skeleton.at w.session.anchors.cwd options.ns).functions,
              some w.session.anchors.cwd,
              some (Skeleton.at w.session.anchors.cwd options.ns).home⟩ } } []
  /-- What was laid out before the failure stays. -/
  | initFailed {ns : String} {format description : Option String} {options : SkeletonOptions}
      {e : SkeletonError} :
      SkeletonOptions.ofArguments ns format description = .ok options →
      (w.layout options).error = some e →
      Does w (.init ns format description) { w with disk := (w.layout options).disk } [.skipped]
  | cd {raw : String} {p : Path} : w.resolve raw .dir = .present p →
      Does w (.cd raw) { w with session.anchors.cwd := p } []
  | mkdir {raw : String} {p : Path} : w.resolve raw .dir = .absent p →
      (w.disk.makeDirs p).2 = .ok () →
      Does w (.mkdir raw) { w with disk := (w.disk.makeDirs p).1 } []
  | mkdirFailed {raw : String} {p : Path} {f : Fault} : w.resolve raw .dir = .absent p →
      (w.disk.makeDirs p).2 = .error f →
      Does w (.mkdir raw) { w with disk := (w.disk.makeDirs p).1 } [.skipped]
  | rmdir {raw : String} {p : Path} : w.resolve raw .dir = .present p →
      Does w (.rmdir raw) { w with disk := (w.disk.removeTree p true).disk }
        ((w.disk.removeTree p true).failures.map fun _ => .suppressed)
  | clear {raw : Option String} {p : Path} : w.resolve (raw.getD ".") .dir = .present p →
      Does w (.clear raw) { w with disk := (w.disk.removeTree p false).disk }
        ((w.disk.removeTree p false).failures.map fun _ => .suppressed)
  | «open» {raw : String} {p : Path} : (w.resolve raw .file).path? = some p →
      (OutputStack.provide w.disk p).2 = .ok () →
      Does w (.open raw)
        { disk := (OutputStack.provide w.disk p).1
          session := { w.session with files := p :: w.session.files } } []
  | openFailed {raw : String} {p : Path} {f : Fault} : (w.resolve raw .file).path? = some p →
      (OutputStack.provide w.disk p).2 = .error f →
      Does w (.open raw) { w with disk := (OutputStack.provide w.disk p).1 } [.skipped]
  | close {p : Path} {files : OutputStack} : w.session.files = p :: files →
      Does w .close { w with session.files := files } []
  | del {raw : String} {p : Path} {d : Disk} : w.resolve raw .file = .present p →
      w.disk.deleteFile p = .ok (some d) → Does w (.del raw) { w with disk := d } []
  | log (message : String) : Does w (.log message) w [.log]

/-! ## Each directive -/

@[simp] theorem diagnosticKinds_nil : diagnosticKinds [] = [] := rfl

@[simp] theorem diagnosticKinds_event (e : Log.Event) (notes : List Note) :
    diagnosticKinds (.event e :: notes) = diagnosticKinds notes := rfl

@[simp] theorem diagnosticKinds_diagnostic (kind : DiagnosticKind) (message : String)
    (notes : List Note) :
    diagnosticKinds (.diagnostic kind message :: notes) = kind :: diagnosticKinds notes := rfl

@[simp] theorem diagnosticKinds_append (a b : List Note) :
    diagnosticKinds (a ++ b) = diagnosticKinds a ++ diagnosticKinds b := List.filterMap_append

@[simp] theorem diagnosticKinds_tell (w : World) (level : Log.Level) (part : Log.Part)
    (message : String) (fields : List (String × String)) (notes : List Note) :
    diagnosticKinds (w.tell level part message fields :: notes) = diagnosticKinds notes := rfl

def Step.Does (w : World) (d : Directive) (s : Step) : Prop :=
  World.Does w d s.1 (diagnosticKinds s.2)

theorem skip_does (w : World) (d : Directive) (message : String) :
    (w.skip message).Does w d := Does.skipped d

theorem goRoot_does (w : World) : w.goRoot.Does w .root := by
  unfold goRoot
  split
  · rename_i hr; exact .rootUnset hr
  · rename_i r hr
    split
    · rename_i hd; exact .root hr hd
    · exact w.skip_does _ _

theorem goHome_does (w : World) : w.goHome.Does w .home := by
  unfold goHome
  split
  · exact w.skip_does _ _
  · rename_i h hh
    split
    · rename_i hd; exact .home hh hd
    · exact w.skip_does _ _

theorem changeHome_does (w : World) (path : Option String) :
    (w.changeHome path).Does w (.sethome path) := by
  unfold changeHome
  split
  · simp only
    split
    · rename_i hd; exact .sethomeHere hd
    · exact w.skip_does _ _
  · split
    · rename_i hp; exact .sethome hp
    · exact w.skip_does _ _
    · exact w.skip_does _ _

/-- Directories that were created are told as events alone. -/
theorem diagnosticKinds_createdBy (steps : List LayoutStep) :
    diagnosticKinds (createdBy steps) = [] := by
  unfold diagnosticKinds createdBy
  rw [List.filterMap_filterMap, List.filterMap_eq_nil_iff]
  intro step _
  cases step <;> rfl

theorem initialise_does (w : World) (ns : String) (format description : Option String) :
    (w.initialise ns format description).Does w (.init ns format description) := by
  unfold initialise
  cases ho : SkeletonOptions.ofArguments ns format description with
  | error e => exact w.skip_does _ _
  | ok options =>
    have layout : Skeleton.layOut w.session.anchors.cwd options w.disk = w.layout options := rfl
    cases he : (w.layout options).error with
    | some e =>
      simp only [layOut, layout, he]
      unfold Step.Does
      simp only [diagnosticKinds_append, diagnosticKinds_createdBy, List.nil_append]
      exact .initFailed ho he
    | none =>
      simp only [layOut, layout, he]
      unfold Step.Does
      simp only [diagnosticKinds_append, diagnosticKinds_createdBy, List.nil_append]
      exact .init ho he

theorem changeDir_does (w : World) (raw : String) : (w.changeDir raw).Does w (.cd raw) := by
  unfold changeDir
  split
  · rename_i hp; exact .cd hp
  · exact w.skip_does _ _
  · exact w.skip_does _ _

theorem makeDir_does (w : World) (raw : String) : (w.makeDir raw).Does w (.mkdir raw) := by
  unfold makeDir
  split
  · rename_i p hp
    split
    · rename_i d hd
      have : w.disk.makeDirs p = (d, .ok ()) := hd
      have h := Does.mkdir hp (by rw [this])
      rw [this] at h
      exact h
    · rename_i d f hd
      have h := Does.mkdirFailed hp (by rw [hd])
      rw [hd] at h
      exact h
  · exact w.skip_does _ _
  · exact w.skip_does _ _

/-- A removal that is over tells its steps as events, and each failure as suppressed. -/
theorem diagnosticKinds_removal (w : World) (name : String) (dir : Path) (r : Removal) :
    diagnosticKinds (r.steps.map removalNote ++
      r.failures.map (fun failure =>
        .diagnostic .suppressed (name ++ ": " ++ Removal.failureText failure)) ++
      [w.removalOutcome name dir r]) = r.failures.map fun _ => .suppressed := by
  have steps : diagnosticKinds (r.steps.map removalNote) = [] := by
    unfold diagnosticKinds
    rw [List.filterMap_map, List.filterMap_eq_nil_iff]
    intro step _
    cases step <;> rfl
  have failures : diagnosticKinds (r.failures.map fun failure =>
      .diagnostic .suppressed (name ++ ": " ++ Removal.failureText failure)) =
        r.failures.map fun _ => .suppressed := by
    unfold diagnosticKinds
    rw [List.filterMap_map]
    exact congrFun List.filterMap_eq_map' r.failures
  have outcome : diagnosticKinds [w.removalOutcome name dir r] = [] := by
    unfold removalOutcome
    split <;> rfl
  rw [diagnosticKinds_append, diagnosticKinds_append, steps, failures, outcome,
    List.nil_append, List.append_nil]

theorem removeDir_does (w : World) (name raw : String) (self : Bool) {d : Directive}
    (h : ∀ p, w.resolve raw .dir = .present p →
      Does w d { w with disk := (w.disk.removeTree p self).disk }
        ((w.disk.removeTree p self).failures.map fun _ => .suppressed)) :
    (w.removeDir name raw self).Does w d := by
  unfold removeDir
  split
  · exact w.skip_does _ _
  · exact w.skip_does _ _
  · rename_i p hp
    unfold Step.Does
    rw [diagnosticKinds_removal]
    exact h p hp

/-- Opening puts the path on the stack just if its file could be provided. -/
theorem push_cases (files : OutputStack) (d : Disk) (p : Path) :
    ((OutputStack.provide d p).2 = .ok () ∧
      files.push d p = ((OutputStack.provide d p).1, .ok (p :: files))) ∨
    ∃ f, (OutputStack.provide d p).2 = .error f ∧
      files.push d p = ((OutputStack.provide d p).1, .error f) := by
  unfold OutputStack.push
  obtain ⟨d', told⟩ := OutputStack.provide d p
  cases told with
  | ok u => exact .inl ⟨rfl, rfl⟩
  | error f => exact .inr ⟨f, rfl, rfl⟩

theorem openFile_does (w : World) (raw : String) : (w.openFile raw).Does w (.open raw) := by
  unfold openFile
  cases hr : w.resolve raw .file with
  | invalid e => exact w.skip_does _ _
  | present p | absent p =>
    have hp : (w.resolve raw .file).path? = some p := by rw [hr]; rfl
    rcases push_cases w.session.files w.disk p with ⟨hok, h⟩ | ⟨f, hf, h⟩
    · simp only [h]
      exact Does.open hp hok
    · simp only [h]
      exact Does.openFailed hp hf

theorem closeFile_does (w : World) : w.closeFile.Does w .close := by
  unfold closeFile
  split
  · exact w.skip_does _ _
  · rename_i p files hf; exact .close hf

theorem deleteFile_does (w : World) (raw : String) : (w.deleteFile raw).Does w (.del raw) := by
  unfold deleteFile
  split
  · rename_i p hp
    split
    · rename_i d hd; exact .del hp hd
    · exact w.skip_does _ _
    · exact w.skip_does _ _
  · exact w.skip_does _ _
  · exact w.skip_does _ _

theorem perform_does (w : World) (d : Directive) : (w.perform d).Does w d := by
  cases d with
  | root => exact w.goRoot_does
  | home => exact w.goHome_does
  | sethome path => exact w.changeHome_does path
  | init ns format description => exact w.initialise_does ns format description
  | cd path => exact w.changeDir_does path
  | mkdir path => exact w.makeDir_does path
  | rmdir path =>
    rw [perform]
    exact w.removeDir_does _ _ _ fun p hp => .rmdir hp
  | clear path =>
    rw [perform]
    exact w.removeDir_does _ _ _ fun p hp => .clear hp
  | «open» path => exact w.openFile_does path
  | close => exact w.closeFile_does
  | del path => exact w.deleteFile_does path
  | log message => exact Does.log message

/-- A directive goes one of its ways. -/
theorem execute_does (w : World) (d : Directive) : (w.execute d).Does w d := by
  have h := w.perform_does d
  unfold Step.Does at *
  unfold execute
  simp only [diagnosticKinds_tell]
  exact h

/-! ## What a directive does to the session -/

namespace Does

variable {w w' : World} {d : Directive} {kinds : List DiagnosticKind}

/-- An anchor moves to another one, to where an argument leads, or to a part of a datapack
laid out at the working location. -/
theorem anchors_all {P : Path → Prop} (h : w.Does d w' kinds) (hw : w.session.anchors.All P)
    (hfound : ∀ raw p, w.resolve raw .dir = .present p → P p)
    (hpart : ∀ ns, Path.IsStretch ns → P (Skeleton.at w.session.anchors.cwd ns).functions ∧
      P (Skeleton.at w.session.anchors.cwd ns).home) : w'.session.anchors.All P := by
  have set : ∀ {p : Path}, P p → ∀ q ∈ some p, P q := by
    intro p hp q hq
    cases hq
    exact hp
  cases h with
  | skipped | rootUnset | initFailed | mkdir | mkdirFailed | rmdir | clear | «open» | openFailed
    | close | del | log => exact hw
  | root hr _ => exact ⟨hw.root _ hr, hw.root, hw.home⟩
  | home hh _ => exact ⟨hw.home _ hh, hw.root, hw.home⟩
  | sethomeHere _ => exact ⟨hw.cwd, hw.root, set hw.cwd⟩
  | sethome hp => exact ⟨hw.cwd, hw.root, set (hfound _ _ hp)⟩
  | cd hp => exact ⟨hfound _ _ hp, hw.root, hw.home⟩
  | init ho _ =>
    obtain ⟨rfl, hns⟩ := isNamespace_of_ofArguments ho
    obtain ⟨hfunctions, hhome⟩ := hpart _ (isStretch_of_isNamespace hns)
    exact ⟨hfunctions, set hw.cwd, set hhome⟩

theorem absolute (h : w.Does d w' kinds) (hw : w.session.anchors.Absolute) :
    w'.session.anchors.Absolute := by
  refine h.anchors_all hw ?_ ?_
  · intro raw p hp
    exact (Anchors.inside_of_resolve hw (resolve_path?_of_present hp)).1.isAbsolute
  · intro ns hns
    exact ⟨Skeleton.isAbsolute_functions hns hw.cwd, Skeleton.isAbsolute_home hns hw.cwd⟩

/-- Nothing new is on the stack of open files but what an `open` has put there. -/
theorem files (h : w.Does d w' kinds) : (∀ p ∈ w'.session.files, p ∈ w.session.files) ∨
    ∃ raw p, (w.resolve raw .file).path? = some p ∧ w'.session.files = p :: w.session.files := by
  cases h with
  | @«open» raw p hp _ => exact .inr ⟨raw, p, hp, rfl⟩
  | close hf =>
    left
    intro p hp
    rw [hf]
    exact List.mem_cons_of_mem _ hp
  | skipped | rootUnset | root | home | sethomeHere | sethome | init | initFailed | cd | mkdir
    | mkdirFailed | rmdir | clear | openFailed | del | log => exact .inl fun _ hp => hp

end Does

/-! ## Content lines -/

theorem writeText_of_noneOpen {w : World} (h : w.session.files.head? = none) (text : String) :
    (w.writeText text).1 = w := by
  unfold writeText OutputStack.write OutputStack.current?
  rw [h]

theorem writeText_of_append {w : World} {p : Path} {d : Disk} {text : String}
    (hp : w.session.files.head? = some p) (hf : w.disk.isFile p = true)
    (hd : w.disk.append p (OutputStack.written text) = .ok d) :
    (w.writeText text).1 = { w with disk := d } := by
  unfold writeText OutputStack.write OutputStack.current?
  simp [hp, hf, hd]

theorem writeText_cases (w : World) (text : String) :
    (w.writeText text).1 = w ∨ ∃ p d, w.session.files.head? = some p ∧ w.disk.isFile p = true ∧
      w.disk.append p (OutputStack.written text) = .ok d ∧
      (w.writeText text).1 = { w with disk := d } := by
  cases hp : w.session.files.head? with
  | none => exact .inl (writeText_of_noneOpen hp text)
  | some p =>
    by_cases hf : w.disk.isFile p = true
    · cases hd : w.disk.append p (OutputStack.written text) with
      | ok d => exact .inr ⟨p, d, rfl, hf, hd, writeText_of_append hp hf hd⟩
      | error f =>
        left
        simp [writeText, OutputStack.write, OutputStack.current?, hp, hf, hd, skip]
    · left
      simp [writeText, OutputStack.write, OutputStack.current?, hp, hf]

/-! ## Lines and runs -/

theorem executeLine_cases (w : World) (line : String) :
    ((∀ text, classify line ≠ .content text) ∧ (w.executeLine line).1 = w) ∨
    (∃ d kinds, classify line = .directive d ∧ w.Does d (w.executeLine line).1 kinds) ∨
    ∃ text, classify line = .content text ∧ (w.executeLine line).1 = (w.writeText text).1 := by
  unfold executeLine
  cases h : classify line with
  | blank => exact .inl ⟨by simp, rfl⟩
  | directive d => exact .inr (.inl ⟨d, _, rfl, w.execute_does d⟩)
  | malformed e => exact .inl ⟨by simp, rfl⟩
  | content text => exact .inr (.inr ⟨text, rfl, rfl⟩)

/-- What every line keeps, a run keeps; the number of the line is no matter. -/
theorem runLines_keeps {I : World → Prop}
    (hnumber : ∀ (w : World) n, I w → I { w with session.line := n })
    (hline : ∀ (w : World) line, I w → I (w.executeLine line).1) {w : World} (hw : I w) (n : Nat)
    (lines : List String) : I (w.runLines n lines).1 := by
  induction lines generalizing w n with
  | nil => exact hw
  | cons line rest ih => exact ih (hline _ line (hnumber w (n + 1) hw)) (n + 1)

end World

end Datapack
