import Datapack.Proofs.Routing

/-
  Datapack.Proofs.Diagnostics — what the lines of a script report.

  A line reports in one of four ways (`Reported`): not at all; with the one message of a
  `log`; with one message that it was skipped; or, where a removal was done in part, with
  one message for each thing that is left. So nobody is told twice, and what is skipped
  has nothing else to say.

  A line that was skipped has left the session as it was (`session_of_skipped`), even an
  `init` that has made directories by then: the session is set only when all is laid out.

  The diagnostics of a run are those of its lines, in their order and with their numbers,
  behind what was there before (`run_reports`).
-/

namespace Datapack

open Script

namespace World

def records (w : World) (line : String) : List Diagnostic :=
  (w.executeLine line).2.filterMap (Note.diagnostic? w.session.line)

/-- The ways in which a line can report, by what it asks for. -/
inductive Reported : Line → List DiagnosticKind → Prop
  | silent (l : Line) : Reported l []
  | log (message : String) : Reported (.directive (.log message)) [.log]
  | skipped (l : Line) : Reported l [.skipped]
  | rmdir (path : String) (n : Nat) :
      Reported (.directive (.rmdir path)) (List.replicate (n + 1) .suppressed)
  | clear (path : Option String) (n : Nat) :
      Reported (.directive (.clear path)) (List.replicate (n + 1) .suppressed)

variable {w w' : World} {line : String}

/-! ## One line -/

theorem records_kinds (w : World) (line : String) :
    (w.records line).map Diagnostic.kind = diagnosticKinds (w.executeLine line).2 := by
  unfold records diagnosticKinds
  rw [List.map_filterMap]
  congr 1
  funext note
  cases note <;> rfl

theorem records_line {r : Diagnostic} (h : r ∈ w.records line) : r.line = w.session.line := by
  obtain ⟨note, _, hr⟩ := List.mem_filterMap.1 h
  cases note with
  | diagnostic kind message =>
    cases hr
    rfl
  | event e => cases hr

namespace Does

variable {d : Directive} {kinds : List DiagnosticKind}

theorem reported (h : w.Does d w' kinds) : Reported (.directive d) kinds := by
  cases h with
  | skipped | initFailed | mkdirFailed | openFailed => exact .skipped _
  | log message => exact .log message
  | rootUnset | root | home | sethomeHere | sethome | init | cd | mkdir | «open» | close | del =>
    exact .silent _
  | @rmdir raw p =>
    rw [List.map_const']
    cases (w.disk.removeTree p true).failures.length with
    | zero => exact .silent _
    | succ n => exact .rmdir raw n
  | @clear raw p =>
    rw [List.map_const']
    cases (w.disk.removeTree p false).failures.length with
    | zero => exact .silent _
    | succ n => exact .clear raw n

theorem session_of_skipped (h : w.Does d w' kinds) (hk : .skipped ∈ kinds) :
    w'.session = w.session := by
  cases h with
  | skipped | initFailed | mkdirFailed | openFailed | rmdir | clear => rfl
  | rootUnset | root | home | sethomeHere | sethome | init | cd | mkdir | «open» | close | del | log =>
    simp at hk

end Does

/-- Content that cannot be written is skipped; otherwise there is nothing to report. -/
theorem writeText_reports (w : World) (text : String) :
    diagnosticKinds (w.writeText text).2 = [] ∨ ∃ message, w.writeText text = w.skip message := by
  unfold writeText
  split
  · exact .inl rfl
  · exact .inl rfl
  · exact .inl rfl
  · exact .inr ⟨_, rfl⟩

/-- A line does what its directive does, writes its text, or is skipped as it stands. -/
theorem executeLine_reports (w : World) (line : String) :
    (∃ d, classify line = .directive d ∧
      w.Does d (w.executeLine line).1 (diagnosticKinds (w.executeLine line).2)) ∨
    diagnosticKinds (w.executeLine line).2 = [] ∨
    ∃ message, w.executeLine line = w.skip message := by
  unfold executeLine
  cases classify line with
  | blank => exact .inr (.inl rfl)
  | directive d => exact .inl ⟨d, rfl, w.execute_does d⟩
  | malformed e => exact .inr (.inr ⟨_, rfl⟩)
  | content text => exact .inr (w.writeText_reports text)

theorem executeLine_reported (w : World) (line : String) :
    Reported (classify line) (diagnosticKinds (w.executeLine line).2) := by
  rcases w.executeLine_reports line with ⟨d, hd, h⟩ | h | ⟨message, h⟩
  · rw [hd]
    exact h.reported
  · rw [h]
    exact .silent _
  · rw [h]
    exact .skipped _

/-- A line that was skipped has left the session alone. -/
theorem session_of_skipped (h : .skipped ∈ diagnosticKinds (w.executeLine line).2) :
    (w.executeLine line).1.session = w.session := by
  rcases w.executeLine_reports line with ⟨d, _, hdoes⟩ | hsilent | ⟨message, hskip⟩
  · exact hdoes.session_of_skipped h
  · rw [hsilent] at h
    cases h
  · rw [hskip]
    rfl

/-! ## Runs -/

theorem trace_numbers (w : World) (n : Nat) (lines : List String) :
    (w.trace n lines).map (fun m => (m.2, m.1.session.line)) = lines.zipIdx (n + 1) := by
  induction lines generalizing w n with
  | nil => rfl
  | cons line rest ih =>
    simp only [trace, List.map_cons, List.zipIdx_cons, ih]

theorem diagnostics_append (a b : List (Nat × Note)) :
    diagnostics (a ++ b) = diagnostics a ++ diagnostics b := List.filterMap_append

theorem diagnostics_runLines (w : World) (n : Nat) (lines : List String) :
    diagnostics (w.runLines n lines).2 = (w.trace n lines).flatMap fun m => m.1.records m.2 := by
  induction lines generalizing w n with
  | nil => rfl
  | cons line rest ih =>
    have here : ∀ notes : List Note, diagnostics (notes.map (n + 1, ·)) =
        notes.filterMap (Note.diagnostic? (n + 1)) := by
      intro notes
      unfold diagnostics
      rw [List.filterMap_map]
      rfl
    simp only [runLines, trace, List.flatMap_cons, diagnostics_append, here, ih]
    rfl

end World

/-- A run adds to the diagnostics, line by line, and to nothing that is there; each line
reports in one of the four ways, under its number counted from one; and if it was
skipped the anchors, the namespace and the open files are what they were. -/
theorem run_reports (w : World) (earlier : List (Nat × Note)) (source : String) :
    let trace := w.trace 0 (Text.lines source)
    trace.map (fun m => (m.2, m.1.session.line)) = (Text.lines source).zipIdx 1 ∧
    diagnostics (earlier ++ (w.run source).2) =
      diagnostics earlier ++ trace.flatMap (fun m => m.1.records m.2) ∧
    ∀ m ∈ trace,
      (∀ r ∈ m.1.records m.2, r.line = m.1.session.line) ∧
      World.Reported (classify m.2) ((m.1.records m.2).map Diagnostic.kind) ∧
      (.skipped ∈ (m.1.records m.2).map Diagnostic.kind →
        (m.1.executeLine m.2).1.session = m.1.session) := by
  intro trace
  refine ⟨w.trace_numbers 0 _, ?_, ?_⟩
  · rw [World.diagnostics_append]
    congr 1
    exact w.diagnostics_runLines 0 _
  · rintro ⟨v, line⟩ _
    refine ⟨fun r hr => World.records_line hr, ?_, ?_⟩
    · rw [v.records_kinds line]
      exact v.executeLine_reported line
    · rw [v.records_kinds line]
      exact World.session_of_skipped

/-- An `init` that has made its directories when it finds one in the place of a file. -/
theorem run_reports_init :
    let t := (FileTree.empty.add [] "p" .dir).add ["p"] "pack.mcmeta" .dir
    let w : World := ⟨⟨t, ⟨[], 0⟩⟩, .begin ⟨"/p"⟩ (some ⟨"/p"⟩)⟩
    let w' : World := { w with session.line := 1 }
    diagnostics (w.run "#> init ns").2 =
      [⟨1, .skipped, "init: failed to write file /p/pack.mcmeta: Is a directory (os error 21)"⟩] ∧
    (w'.executeLine "#> init ns").1.disk.tree.isDir ["p", "data", "ns"] = true ∧
    (w'.executeLine "#> init ns").1.session = w'.session := by
  intro t w w'
  have hreports := run_reports w [] "#> init ns"
  have hm : (w', "#> init ns") ∈ w.trace 0 (Text.lines "#> init ns") := List.mem_cons_self
  obtain ⟨_, _, hsession⟩ := hreports.2.2 (w', "#> init ns") hm
  refine ⟨by decide +kernel, by decide +kernel, ?_⟩
  simp only at hsession
  exact hsession (by decide +kernel)

end Datapack
