import Datapack.Proofs.Creating
import Datapack.Proofs.Diagnostics
import Datapack.Proofs.Removing

/-
  Datapack.Proofs.Silence — a directive that reports nothing has taken effect.

  A directive looks what is there, acts, and goes by what the call on the disk tells; what
  is there may be a file, a directory, a link to either, or a link to nothing. Each way
  through a directive that gives no diagnostic has brought about what the directive is for
  (`World.TookEffect`), whatever there was: what was to be made is there, what was to be
  removed is not, and the session is where it was to go.

  - `silent_directive_took_effect`: every directive line, on any disk.
  - `World.Does.cd_of_mkdir`: what a `mkdir` has made can be gone to by the same argument. The
    anchors that the argument may start from are still there, as making a directory takes
    nothing away.
-/

namespace Datapack

open Script

namespace World

/-- What a directive is to bring about, from `w` to `w'`. -/
def TookEffect (w w' : World) : Directive → Prop
  | .mkdir raw => ∃ p, (w.resolve raw .dir).path? = some p ∧ w'.disk.isDir p = true
  | .cd raw => ∃ p, (w.resolve raw .dir).path? = some p ∧ w'.disk.isDir p = true ∧
      w'.session.anchors.cwd = p
  | .open raw => ∃ p, (w.resolve raw .file).path? = some p ∧ w'.disk.isFile p = true ∧
      w'.session.files.current? = some p
  | .sethome none => w'.session.anchors.home = some w.session.anchors.cwd ∧
      w'.disk.isDir w.session.anchors.cwd = true
  | .sethome (some raw) => ∃ p, (w.resolve raw .dir).path? = some p ∧ w'.disk.isDir p = true ∧
      w'.session.anchors.home = some p
  | .home => ∃ h, w.session.anchors.home = some h ∧ w'.session.anchors.home = some h ∧
      w'.disk.isDir h = true ∧ w'.session.anchors.cwd = h
  | .root => ∃ r, w.session.anchors.root = some r ∧ w'.session.anchors.root = some r ∧
      w'.disk.isDir r = true ∧ w'.session.anchors.cwd = r
  | .del raw => ∃ p, (w.resolve raw .file).path? = some p ∧ w'.disk.Gone p
  | .rmdir raw => ∃ p, (w.resolve raw .dir).path? = some p ∧ w'.disk.Gone p
  | .clear raw => ∃ p, (w.resolve (raw.getD ".") .dir).path? = some p ∧
      (w.disk.canonical p = .ok p → w'.disk.isDir p = true ∧ w'.disk.list p = .ok [])
  | .init .. | .close | .log _ => True

variable {w w' : World} {d : Directive} {raw : String} {p : Path}

theorem isDir_of_resolve (h : w.resolve raw .dir = .present p) : w.disk.isDir p = true := by
  unfold resolve Anchors.resolve at h
  split at h
  · cases h
  · simp only at h
    split at h
    · cases h
      assumption
    · cases h

theorem Does.tookEffect (ha : w.session.anchors.Absolute) (hroot : w.session.anchors.root ≠ none)
    (h : w.Does d w' []) : w.TookEffect w' d := by
  generalize hk : ([] : List DiagnosticKind) = kinds at h
  cases h with
  | skipped | initFailed | mkdirFailed | openFailed | log => cases hk
  | init | close => trivial
  | rootUnset hr => exact absurd hr hroot
  | root hr hd => exact ⟨_, hr, hr, hd, rfl⟩
  | home hh hd => exact ⟨_, hh, hh, hd, rfl⟩
  | sethomeHere hd => exact ⟨rfl, hd⟩
  | @sethome raw p hp =>
    have hdir : w.disk.isDir p = true := isDir_of_resolve hp
    exact ⟨p, resolve_path?_of_present hp, hdir, rfl⟩
  | @cd raw p hp =>
    have hdir : w.disk.isDir p = true := isDir_of_resolve hp
    exact ⟨p, resolve_path?_of_present hp, hdir, rfl⟩
  | mkdir hp hok =>
    have hcanonical := isCanonical_of_resolve ha (resolve_path?_of_absent hp)
    exact ⟨_, resolve_path?_of_absent hp, Disk.isDir_of_makeDirs hcanonical hok⟩
  | «open» hp hok =>
    exact ⟨_, hp, Disk.isFile_of_provide hok, rfl⟩
  | rmdir hp =>
    have hsilent := List.map_eq_nil_iff.1 hk.symm
    have hcanonical := isCanonical_of_resolve ha (resolve_path?_of_present hp)
    exact ⟨_, resolve_path?_of_present hp, Disk.gone_of_removeTree hcanonical hsilent⟩
  | clear hp =>
    have hsilent := List.map_eq_nil_iff.1 hk.symm
    have hcanonical := isCanonical_of_resolve ha (resolve_path?_of_present hp)
    refine ⟨_, resolve_path?_of_present hp, fun hself => ?_⟩
    exact Disk.emptied_of_removeTree hcanonical (isDir_of_resolve hp) hself hsilent
  | @del raw p e hp hdel =>
    have hcanonical := isCanonical_of_resolve ha (resolve_path?_of_present hp)
    have hremoves : Disk.Removes w.disk e p := .inr (Disk.unlink_of_deleteFile hdel)
    exact ⟨p, resolve_path?_of_present hp, Disk.gone_of_removes hcanonical hremoves⟩

theorem does_of_silent {line : String} (hline : classify line = .directive d)
    (h : w.records line = []) : w.Does d (w.executeLine line).1 [] := by
  have hkinds : diagnosticKinds (w.executeLine line).2 = [] := by
    rw [← w.records_kinds line, h]
    rfl
  have hstep : w.executeLine line = w.execute d := by
    unfold executeLine
    rw [hline]
  rw [hstep] at hkinds ⊢
  have hdoes := w.execute_does d
  unfold Step.Does at hdoes
  rwa [hkinds] at hdoes

/-- Directories that are made do not change where arguments lead. -/
theorem resolve_of_makeDirs (ha : w.session.anchors.Absolute) (h : w.resolve raw .dir = .absent p)
    (hok : (w.disk.makeDirs p).2 = .ok ()) {n : Nat} :
    ({ w with disk := (w.disk.makeDirs p).1, session.line := n } : World).resolve raw .dir =
      .present p := by
  have hcanonical := isCanonical_of_resolve ha (resolve_path?_of_absent h)
  have hwithin := Disk.makeDirs_within (d := w.disk) hcanonical.isAbsolute
  have hlocate : w.session.anchors.locate (w.disk.makeDirs p).1 raw .dir false = .ok p := by
    refine Anchors.locate_of_isDir ?_ ?_ (Anchors.locate_of_path? (resolve_path?_of_absent h))
    · exact fun q hq => Disk.isDir_of_within hwithin (ha.root q hq)
    · exact fun q hq => Disk.isDir_of_within hwithin (ha.home q hq)
  have hdir := Disk.isDir_of_makeDirs hcanonical hok
  unfold resolve Anchors.resolve
  simp only [hlocate, hdir, if_true]

theorem Does.cd_of_mkdir (ha : w.session.anchors.Absolute) (h : w.Does (.mkdir raw) w' [])
    {line : String} (hline : classify line = .directive (.cd raw)) (n : Nat) :
    ({ w' with session.line := n } : World).records line = [] := by
  cases h with
  | mkdir hp hok =>
    have hpresent := resolve_of_makeDirs ha hp hok (n := n)
    unfold records executeLine execute perform changeDir
    rw [hline]
    simp only [hpresent]
    rfl

end World

/-- On any disk, a directive that reports nothing has done all that it is for; and where a
`mkdir` has reported nothing, a `cd` with the same argument has nothing to report. -/
theorem silent_directive_took_effect {w : World} (ha : w.session.anchors.Absolute)
    (hroot : w.session.anchors.root ≠ none) {line : String} {d : Directive}
    (hline : classify line = .directive d) (hsilent : w.records line = []) :
    w.TookEffect (w.executeLine line).1 d ∧
    ∀ raw, d = .mkdir raw → ∀ next n, classify next = .directive (.cd raw) →
      ({ (w.executeLine line).1 with session.line := n } : World).records next = [] := by
  have hdoes := World.does_of_silent hline hsilent
  refine ⟨hdoes.tookEffect ha hroot, ?_⟩
  rintro raw rfl next n hnext
  exact hdoes.cd_of_mkdir ha hnext n

/-- An `open` through a link to nothing, which makes the file that the link names. -/
theorem silent_directive_took_effect_link :
    let t := ((FileTree.empty.add [] "p" .dir).add ["p"] "d" .dir).add ["p"] "l" (.link ⟨"d/x"⟩)
    let w : World := ⟨⟨t, ⟨[], 0⟩⟩, .begin ⟨"/p"⟩ (some ⟨"/p"⟩)⟩
    let w' := (w.executeLine "#> open l").1
    (w.session.anchors.Absolute ∧ w.session.anchors.root ≠ none ∧
      classify "#> open l" = .directive (.open "l") ∧ w.records "#> open l" = []) ∧
    w.TookEffect w' (.open "l") ∧
    w.disk.isFile ⟨"/p/d/x"⟩ = false ∧ w'.disk.isFile ⟨"/p/d/x"⟩ = true := by
  intro t w w'
  have ha : w.session.anchors.Absolute := by
    refine ⟨by decide +kernel, ?_, ?_⟩
    · intro r hr
      cases hr
      decide +kernel
    · intro h hh
      cases hh
  have hroot : w.session.anchors.root ≠ none := by simp [w, Session.begin]
  have hline : classify "#> open l" = .directive (.open "l") := by decide +kernel
  have hsilent : w.records "#> open l" = [] := by decide +kernel
  refine ⟨⟨ha, hroot, hline, hsilent⟩, ?_, by decide +kernel, by decide +kernel⟩
  exact (silent_directive_took_effect ha hroot hline hsilent).1

end Datapack
