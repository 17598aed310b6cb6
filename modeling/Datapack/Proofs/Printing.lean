import Datapack.Proofs.Filtering
import Datapack.Proofs.Telling

/-
  Datapack.Proofs.Printing — what a build prints on the error stream.

  The error stream has the events that pass the filter, a line for each, and then what is
  said of the whole batch (`err_of_not_refused`). The log tells the diagnostics between events
  that are quiet, so a filter need be looked at in two places only: what it does to quiet
  events, and to diagnostics.

  The usual filter drops the quiet events, and of the diagnostics those that the warnings at
  the end count; in a verbose run it drops no diagnostic (`filter_usual`, `filter_verbose`).
  So each is shown once (`run_prints_each_report`).

  What scripts say is printed whatever else the environment asks for
  (`run_prints_what_scripts_say`), but for filters that are malformed, and for rules that name
  a field of what scripts say (`run_silences_scripts`).
-/

namespace Datapack

namespace CommandLine

open Log

variable {files : List Path} {output : Option Path} {zip : Bool} {archive : Option Path}
  {i : Invocation} {es : List Event} {rs : List Diagnostic}

/-! ## Printed lines -/

def reportLine (r : Diagnostic) : String :=
  (match r.kind with
    | .skipped => "DEBUG "
    | .suppressed => " WARN "
    | .log => " INFO ") ++
  String.join (r.message.toList.map showChar) ++ " line=" ++ toString r.line ++ "\n"

theorem line_event (r : Diagnostic) : r.event.line = reportLine r := by
  obtain ⟨n, kind, message⟩ := r
  have hfield : " " ++ ("line" ++ ("=" ++ (n.repr ++ "\n"))) = " line=" ++ (n.repr ++ "\n") := by
    rw [← String.append_assoc, ← String.append_assoc]
    rfl
  cases kind <;>
    simp [Event.line, Diagnostic.event, Note.ofKind, reportLine, Level.column, String.append_assoc,
      hfield]

theorem map_line_event (rs : List Diagnostic) :
    (rs.map Diagnostic.event).map Event.line = rs.map reportLine := by
  rw [List.map_map]
  exact List.map_congr_left fun r _ => line_event r

def skippedIn (b : Built) : Nat := (b.diagnostics.filter (·.kind = .skipped)).length

def notice (b : Built) : String :=
  "⚠ " ++ toString (skippedIn b) ++ " directive(s) skipped in " ++ b.source.text ++
    ", rerun with --verbose for details\n"

theorem warning_eq (b : Built) :
    Report.warning b = if skippedIn b = 0 then "" else notice b := by
  have hcount : Report.skipped b = skippedIn b := List.countP_eq_length_filter
  unfold Report.warning notice line
  rw [hcount, String.append_assoc]
  rfl

theorem join_warning (built : List Built) : String.join (built.map Report.warning) =
    String.join ((built.filter (skippedIn · ≠ 0)).map notice) := by
  induction built with
  | nil => rfl
  | cons b built ih =>
    rw [List.map_cons, String.join_cons, ih, warning_eq]
    by_cases h : skippedIn b = 0
    · simp [h]
    · simp [h]

/-- What follows the log lines: the warnings, if they are asked for, and the error. -/
def afterLog (i : Invocation) (b : Batch) : String :=
  (if i.format = .text && !i.verbose then String.join ((b.built.filter (skippedIn · ≠ 0)).map notice)
    else "") ++
  match b.error with
  | none => ""
  | some e => errorLine ("compilation aborted" :: e.message :: e.causes)

theorem err_of_not_refused (h : ¬ RefusesArchive files archive) (i : Invocation)
    (filter : Filter) (elapsed : String) (d : Disk) :
    let b := buildAll (jobsFor files output zip archive) d
    (build .plain i filter elapsed d files output zip archive).2.err =
      String.join (((starting files.length zip :: b.events).filter filter.passes).map Event.line) ++
        afterLog i b := by
  unfold build jobsFor afterLog logLines
  rw [if_neg (by simpa [RefusesArchive] using h)]
  generalize buildAll (files.map fun file => ⟨file, output, zip, archive⟩) d = b
  obtain ⟨disk, events, built, error⟩ := b
  have hprint : ∀ value, Report.print .plain value = .ok (Report.document value) :=
    fun value => print_of_writes (Serializer.plain_writes value)
  cases hformat : i.format <;> cases error <;> simp [hprint, join_warning, String.append_assoc]

/-! ## What is printed -/

theorem part_ne_of_quiet {e : Event} (h : e.Quiet) : e.part ≠ .script := by
  intro hpart
  have hreport : e.isReport = true := by simp [Event.isReport, hpart]
  exact absurd (h.1.symm.trans hreport) Bool.false_ne_true

theorem isReport_event (r : Diagnostic) : r.event.isReport = true := by
  obtain ⟨n, kind, message⟩ := r
  cases kind <;> simp [Event.isReport, Diagnostic.event, Note.ofKind]

/-- A filter that treats all that scripts say alike lets all of it pass, or nothing. -/
theorem filter_script {f : Filter} (heard : Bool) (h : Tells es rs)
    (hheard : ∀ n message, f.passes (spoken n message) = heard) :
    (es.filter f.passes).filter (·.part = .script) =
      if heard then (saidIn rs).map fun m => spoken m.1 m.2 else [] := by
  have hquiet : ∀ e : Event, e.Quiet → (decide (e.part = .script) && f.passes e) = false := by
    intro e he
    simp [part_ne_of_quiet he]
  have hlogs : ∀ r : Diagnostic, (decide (r.event.part = .script) && f.passes r.event) =
      (decide (r.kind = .log) && heard) := by
    intro r
    obtain ⟨n, kind, message⟩ := r
    cases kind with
    | log => exact congrArg (true && ·) (hheard n message)
    | skipped | suppressed => rfl
  -- Both choices are made at once, so that quiet events are passed over.
  rw [List.filter_filter, h.filter hquiet]
  simp only [hlogs]
  cases heard with
  | true =>
    simp only [Bool.and_true, if_true, saidIn, List.map_map]
    refine List.map_congr_left fun r hr => ?_
    obtain ⟨n, kind, message⟩ := r
    cases of_decide_eq_true (List.mem_filter.1 hr).2
    rfl
  | false => simp

theorem filter_heard {environment : Option String} {verbose : Bool} (h : Tells es rs)
    (hheard : Heard environment verbose) :
    ((es.filter (effectiveFilter environment verbose).passes).filter (·.part = .script)).map
      Event.line = (saidIn rs).map fun m => reportLine ⟨m.1, .log, m.2⟩ := by
  have hprinted := filter_script true h fun n message => (passes_spoken_iff n message).2 hheard
  rw [hprinted, if_pos rfl, List.map_map]
  exact List.map_congr_left fun m _ => line_event ⟨m.1, .log, m.2⟩

theorem filter_unheard {environment : Option String} {verbose : Bool} (h : Tells es rs)
    (hunheard : ¬Heard environment verbose) :
    (es.filter (effectiveFilter environment verbose).passes).filter (·.part = .script) = [] := by
  have hprinted := filter_script false h fun n message =>
    Bool.eq_false_iff.2 (mt (passes_spoken_iff n message).1 hunheard)
  rw [hprinted]
  rfl

/-- With the usual filter all diagnostics are printed but those of the least weight. -/
theorem filter_usual (h : Tells es rs) :
    es.filter (effectiveFilter none false).passes =
      (rs.filter (·.kind ≠ .skipped)).map Diagnostic.event := by
  have hquiet : ∀ e : Event, e.Quiet → (effectiveFilter none false).passes e = false := by
    intro e he
    rw [Bool.eq_false_iff, ne_eq, passes_usual, usualLevel, if_neg (part_ne_of_quiet he)]
    obtain ⟨-, herror, hwarn⟩ := he
    cases hlevel : e.level with
    | error => exact absurd hlevel herror
    | warn => exact absurd hlevel hwarn
    | info | debug | trace => decide
  have hkinds : ∀ r : Diagnostic, (effectiveFilter none false).passes r.event =
      decide (r.kind ≠ .skipped) := by
    intro r
    obtain ⟨n, kind, message⟩ := r
    rw [Bool.eq_iff_iff, passes_usual]
    cases kind <;> simp [Diagnostic.event, Note.ofKind, usualLevel, Level.rank]
  rw [h.filter hquiet]
  simp only [hkinds]

/-- With the usual filter of a verbose run they are all printed. -/
theorem filter_verbose (h : Tells es rs) :
    (es.filter (effectiveFilter none true).passes).filter Event.isReport =
      rs.map Diagnostic.event := by
  have hquiet : ∀ e : Event, e.Quiet →
      (e.isReport && (effectiveFilter none true).passes e) = false := by
    intro e he
    rw [he.1, Bool.false_and]
  have hall : ∀ r ∈ rs, (r.event.isReport && (effectiveFilter none true).passes r.event) = true := by
    intro r _
    obtain ⟨n, kind, message⟩ := r
    rw [isReport_event, Bool.true_and, passes_usual]
    cases kind <;> simp [Diagnostic.event, Note.ofKind, usualLevel, Level.rank]
  rw [List.filter_filter, h.filter hquiet, List.filter_eq_self.2 hall]

/-! ## The program -/

variable {args : List String} {elapsed : String} {d : Disk}

/-- That a build has begun is told quietly. -/
theorem tells_starting (h : Tells es rs) (files : Nat) (zip : Bool) :
    Tells (starting files zip :: es) rs := by
  refine .quiet ?_ h
  simp [starting]

theorem sources_jobsFor (files : List Path) (output : Option Path) (zip : Bool) (archive : Option Path) :
    (jobsFor files output zip archive).map (·.source) = files := by
  unfold jobsFor
  rw [List.map_map]
  exact List.map_id files

/-- A build that ends well is not refused, and builds all the files. -/
theorem completes_of_exit {filter : Filter}
    (h : (build .plain i filter elapsed d files output zip archive).2.exit = 0) :
    ¬RefusesArchive files archive ∧
      Completes (jobsFor files output zip archive) (buildAll (jobsFor files output zip archive) d) := by
  by_cases hrefuses : RefusesArchive files archive
  · rw [build_of_refused hrefuses] at h
    cases h
  · have hends : Concludes .plain i (buildAll (jobsFor files output zip archive) d)
        (build .plain i filter elapsed d files output zip archive) :=
      build_of_not_refused hrefuses .plain i filter elapsed d
    rw [hends.exit fun _ => Serializer.plain_writes _] at h
    refine ⟨hrefuses, ?_⟩
    rcases buildAll_cases (jobsFor files output zip archive) d with hall | ⟨before, job, e, hfails⟩
    · exact hall
    · rw [hfails.error] at h
      cases h

/-- Nothing asked for in the environment, and all well: the error stream has the diagnostics of
the results in their order, each once, and then the scripts in which directives were skipped.
The diagnostics of those are left out, unless the run is verbose; then it has those too, among
what else is logged, and no summary of them. -/
theorem run_prints_each_report (hparse : parse args = .ok i)
    (hcommand : i.command = .build files output zip archive) (htext : i.format = .text)
    (hexit : (run args none elapsed d).2.exit = 0) :
    let b := buildAll (jobsFor files output zip archive) d
    let reports := b.built.flatMap (·.diagnostics)
    let shown := (starting files.length zip :: b.events).filter (effectiveFilter none i.verbose).passes
    b.built.map (·.source) = files ∧
    (i.verbose = false → (run args none elapsed d).2.err =
      String.join ((reports.filter (·.kind ≠ .skipped)).map reportLine) ++
        String.join ((b.built.filter (skippedIn · ≠ 0)).map notice)) ∧
    (i.verbose = true → (run args none elapsed d).2.err = String.join (shown.map Event.line) ∧
      (shown.filter Event.isReport).map Event.line = reports.map reportLine) := by
  intro b reports shown
  have hran : run args none elapsed d =
      build .plain i (effectiveFilter none i.verbose) elapsed d files output zip archive :=
    run_of_parse hparse hcommand .plain none elapsed d
  rw [hran] at hexit ⊢
  obtain ⟨hrefuses, hall⟩ := completes_of_exit hexit
  have herr : (build .plain i (effectiveFilter none i.verbose) elapsed d files output zip archive).2.err =
      String.join (shown.map Event.line) ++ afterLog i b := err_of_not_refused hrefuses i _ elapsed d
  have htells : Tells (starting files.length zip :: b.events) reports := by
    obtain ⟨told, htold, -, hresults⟩ := buildAll_tells (jobsFor files output zip archive) d
    rw [hresults hall.error] at htold
    exact tells_starting htold files.length zip
  refine ⟨hall.sources.trans (sources_jobsFor files output zip archive), ?_, ?_⟩
  · intro hverbose
    have hshown : shown = (reports.filter (·.kind ≠ .skipped)).map Diagnostic.event := by
      rw [← filter_usual htells]
      simp only [shown, hverbose]
    rw [herr, hshown, map_line_event]
    simp [afterLog, htext, hverbose, b, hall.error]
  · intro hverbose
    have hshown : shown.filter Event.isReport = reports.map Diagnostic.event := by
      rw [← filter_verbose htells]
      simp only [shown, hverbose]
    refine ⟨?_, ?_⟩
    · rw [herr]
      simp [afterLog, hverbose, b, hall.error]
    · rw [hshown, map_line_event]

/-- Two scripts, one of which closes a file that it never opened. -/
theorem run_prints_each_report_two :
    let args := ["build", "a", "b"]
    let d : Disk := ⟨(FileTree.empty.add [] "a" (.file "#> log hi\n#> close\n".toUTF8)).add [] "b"
      (.file "#> log bye\n".toUTF8), ⟨[], 0⟩⟩
    parse args = .ok ⟨false, .text, .build [⟨"a"⟩, ⟨"b"⟩] none false none⟩ ∧
      (run args none "" d).2.exit = 0 ∧
      (run args none "" d).2.err = " INFO hi line=1\n INFO bye line=1\n" ++
        "⚠ 1 directive(s) skipped in a, rerun with --verbose for details\n" := by
  intro args d
  have hparse : parse args = .ok ⟨false, .text, .build [⟨"a"⟩, ⟨"b"⟩] none false none⟩ :=
    ok_of_toOption (by decide +kernel)
  have hexit : (run args none "" d).2.exit = 0 := by decide +kernel
  obtain ⟨-, hquiet, -⟩ := run_prints_each_report hparse rfl rfl hexit
  exact ⟨hparse, hexit, (hquiet rfl).trans (by decide +kernel)⟩

/-- What scripts say is printed, all of it in its order and each once, just if it is heard: if
the filter that the environment asks for is well-formed, and has no rule for what scripts say
that names fields and keeps it back. So it is heard if the environment asks for nothing, or
names no fields; whatever else it asks for, and even if it wants nothing printed at all. -/
theorem run_prints_what_scripts_say (hparse : parse args = .ok i)
    (hcommand : i.command = .build files output zip archive) (environment : Option String)
    (elapsed : String) (d : Disk) :
    let jobs := jobsFor files output zip archive
    let ran := run args environment elapsed d
    let shown := (starting files.length zip :: (buildAll jobs d).events).filter
      (effectiveFilter environment i.verbose).passes
    (RefusesArchive files archive → ran.1 = d ∧ ran.2.exit = 1) ∧
    (¬RefusesArchive files archive →
      ran.2.err = String.join (shown.map Event.line) ++ afterLog i (buildAll jobs d) ∧
      (Heard environment i.verbose → (shown.filter (·.part = .script)).map Event.line =
        (said jobs d).map fun m => reportLine ⟨m.1, .log, m.2⟩) ∧
      (¬Heard environment i.verbose → shown.filter (·.part = .script) = [])) ∧
    (environment = none → Heard environment i.verbose) ∧
    ∀ f, Filter.parse? (asked environment i.verbose) = some f → f.Bare →
      Heard environment i.verbose := by
  intro jobs ran shown
  have hran : ran =
      build .plain i (effectiveFilter environment i.verbose) elapsed d files output zip archive :=
    run_of_parse hparse hcommand .plain environment elapsed d
  rw [hran]
  refine ⟨?_, ?_, ?_, fun f => heard_of_bare⟩
  · intro hrefuses
    rw [build_of_refused hrefuses]
    exact ⟨rfl, rfl⟩
  · intro hrefuses
    obtain ⟨reports, htold, hsaid, -⟩ := buildAll_tells jobs d
    have htells : Tells (starting files.length zip :: (buildAll jobs d).events) reports :=
      tells_starting htold files.length zip
    refine ⟨err_of_not_refused hrefuses i _ elapsed d, ?_, filter_unheard htells⟩
    intro hheard
    rw [← hsaid]
    exact filter_heard htells hheard
  · intro hunset
    rw [hunset]
    exact heard_of_unset i.verbose

/-- A filter that lets nothing else pass, and wants only errors of what scripts say. -/
theorem run_prints_what_scripts_say_off :
    let args := ["build", "p"]
    let environment := some "off,mcfc::log=error"
    let d : Disk := ⟨FileTree.empty.add [] "p" (.file "#> log hi\n#> close\n#> log bye\n".toUTF8),
      ⟨[], 0⟩⟩
    let told := starting 1 false :: (buildAll (jobsFor [⟨"p"⟩] none false none) d).events
    parse args = .ok ⟨false, .text, .build [⟨"p"⟩] none false none⟩ ∧
      ¬RefusesArchive [⟨"p"⟩] none ∧ Heard environment false ∧
      ((told.filter (effectiveFilter environment false).passes).filter (·.part = .script)).map
        Event.line = [" INFO hi line=1\n", " INFO bye line=3\n"] := by
  intro args environment d told
  have hparse : parse args = .ok ⟨false, .text, .build [⟨"p"⟩] none false none⟩ :=
    ok_of_toOption (by decide +kernel)
  have hrefuses : ¬RefusesArchive [⟨"p"⟩] none := by
    intro h
    cases h.1
  obtain ⟨-, hruns, -, hbare⟩ := run_prints_what_scripts_say hparse rfl environment "" d
  have hheard : Heard environment false := by
    refine hbare ⟨[⟨none, none, none, []⟩, ⟨some .error, some "mcfc::log", none, []⟩]⟩ ?_ ?_
    · decide +kernel
    · unfold Filter.Bare
      decide
  obtain ⟨-, hprinted, -⟩ := hruns hrefuses
  exact ⟨hparse, hrefuses, hheard, (hprinted hheard).trans (by decide +kernel)⟩

/-- Filters that are malformed, or have a rule that names a field of what scripts say, silence
them. -/
theorem run_silences_scripts :
    let args := ["build", "p"]
    let d : Disk := ⟨FileTree.empty.add [] "p" (.file "#> log hi\n".toUTF8), ⟨[], 0⟩⟩
    said (jobsFor [⟨"p"⟩] none false none) d = [(1, "hi")] ∧
      ∀ environment ∈ ["foo=bar", "mcfc::log[\x7bline\x7d]=off"],
        (run args (some environment) "" d).2.exit = 0 ∧ (run args (some environment) "" d).2.err = "" := by
  intro args d
  refine ⟨by decide +kernel, ?_⟩
  decide +kernel

end CommandLine

end Datapack
