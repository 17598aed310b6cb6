import Mathlib.Data.List.Forall2
import Datapack.CommandLine.Program
import Datapack.Proofs.Calls
import Datapack.Proofs.Describing

/-
  Datapack.Proofs.Stopping — batches that end before their end.

  A batch either builds all its jobs (`Completes`), or there is a first one that fails:
  those before it were built, and nothing was begun after it (`FailsAt`). There is no third
  way (`buildAll_cases`). Hence batches can be taken apart anywhere: what follows a stretch
  of jobs that were built goes on from the disk that they leave, and what follows a failure
  does not matter (`buildAll_append_of_built`, `buildAll_append_of_failed`).

  The program tells the outcome twice, by its exit code and by its report. The exit code is 0
  just if all files were built; the report, read as JSON, has the results of those that were
  built, each with all its parts, and the error that has ended the batch, if any (`IsReport`).
  A report that the serializer refuses is not printed, and the exit code is 1 even if the batch
  ended well; the disk is then as the batch has left it. An archive for several files is
  refused before anything is done.
-/

namespace Datapack

variable {job : Job} {jobs : List Job} {d d' : Disk} {e : BuildError}

/-! ## Batches -/

def Batch.andThen (a b : Batch) : Batch := ⟨b.disk, a.events ++ b.events, a.built ++ b.built, b.error⟩

structure Completes (jobs : List Job) (b : Batch) : Prop where
  error : b.error = none
  sources : b.built.map (·.source) = jobs.map (·.source)

/-- The jobs `before` were built, and `job` has failed on the disk that they left. The batch
has ended there. -/
structure FailsAt (jobs : List Job) (d : Disk) (b : Batch) (before : List Job) (job : Job)
    (e : BuildError) : Prop where
  splits : ∃ after, jobs = before ++ job :: after
  prior : Completes before (buildAll before d)
  fails : (job.build (buildAll before d).disk).result = .error e
  built : b.built = (buildAll before d).built
  error : b.error = some e
  disk : b.disk = (job.build (buildAll before d).disk).disk

theorem source_of_build {built : Built} (h : (job.build d).result = .ok built) :
    built.source = job.source := by
  unfold Job.build at h
  split at h
  · cases h
  split at h
  · cases h
  · obtain ⟨_, rfl⟩ := Job.built_of_executeIn h
    rfl

theorem buildAll_cons_ok {events : List Log.Event} {built : Built}
    (h : job.build d = ⟨d', events, .ok built⟩) (jobs : List Job) :
    buildAll (job :: jobs) d = Batch.andThen ⟨d', events, [built], none⟩ (buildAll jobs d') := by
  simp [buildAll, h, Batch.andThen]

theorem buildAll_cons_error {events : List Log.Event} (h : job.build d = ⟨d', events, .error e⟩)
    (jobs : List Job) : buildAll (job :: jobs) d = ⟨d', events, [], some e⟩ := by
  simp [buildAll, h]

/-- All jobs are built, or one is the first to fail. -/
theorem buildAll_cases (jobs : List Job) (d : Disk) :
    Completes jobs (buildAll jobs d) ∨ ∃ before job e, FailsAt jobs d (buildAll jobs d) before job e := by
  induction jobs generalizing d with
  | nil => exact .inl ⟨rfl, rfl⟩
  | cons job jobs ih =>
    cases hbuild : job.build d with
    | mk d' events result =>
      have hresult : (job.build d).result = result := by rw [hbuild]
      have hdisk : (job.build d).disk = d' := by rw [hbuild]
      cases result with
      | error e =>
        right
        rw [buildAll_cons_error hbuild]
        exact ⟨[], job, e, ⟨jobs, rfl⟩, ⟨rfl, rfl⟩, hresult, rfl, rfl, hdisk.symm⟩
      | ok built =>
        have hsource := source_of_build hresult
        have hcompletes : ∀ {jobs b}, Completes jobs b →
            Completes (job :: jobs) (Batch.andThen ⟨d', events, [built], none⟩ b) := by
          intro jobs b h
          refine ⟨h.error, ?_⟩
          show built.source :: b.built.map (·.source) = job.source :: jobs.map (·.source)
          rw [hsource, h.sources]
        rcases ih d' with h | ⟨before, failed, e, h⟩
        · left
          rw [buildAll_cons_ok hbuild]
          exact hcompletes h
        · right
          obtain ⟨after, hjobs⟩ := h.splits
          have hbefore := buildAll_cons_ok hbuild before
          refine ⟨job :: before, failed, e, ⟨after, by rw [hjobs]; rfl⟩, ?_, ?_, ?_, ?_, ?_⟩
          · rw [hbefore]
            exact hcompletes h.prior
          · rw [hbefore]
            exact h.fails
          · rw [hbefore, buildAll_cons_ok hbuild]
            show built :: (buildAll jobs d').built = built :: (buildAll before d').built
            rw [h.built]
          · rw [buildAll_cons_ok hbuild]
            exact h.error
          · rw [hbefore, buildAll_cons_ok hbuild]
            exact h.disk

/-- So all are built just if there are as many results as jobs. -/
theorem error_eq_none_iff : (buildAll jobs d).error = none ↔ (buildAll jobs d).built.length = jobs.length := by
  rcases buildAll_cases jobs d with h | ⟨before, job, e, h⟩
  · have hlength := congrArg List.length h.sources
    rw [List.length_map, List.length_map] at hlength
    simp [h.error, hlength]
  · obtain ⟨after, hjobs⟩ := h.splits
    have hlength := congrArg List.length h.prior.sources
    rw [List.length_map, List.length_map, ← h.built] at hlength
    rw [h.error, hlength, hjobs, List.length_append, List.length_cons]
    simp

theorem buildAll_append_of_built (h : (buildAll jobs d).error = none) (more : List Job) :
    buildAll (jobs ++ more) d = (buildAll jobs d).andThen (buildAll more (buildAll jobs d).disk) := by
  rw [buildAll_append]
  cases hb : buildAll jobs d with
  | mk d' events built error =>
    rw [hb] at h
    cases error with
    | none => rfl
    | some e => cases h

theorem buildAll_append_of_failed (h : (buildAll jobs d).error = some e) (more : List Job) :
    buildAll (jobs ++ more) d = buildAll jobs d := by
  rw [buildAll_append]
  cases hb : buildAll jobs d with
  | mk d' events built error =>
    rw [hb] at h
    cases error with
    | none => cases h
    | some e => rfl

/-- A script that cannot be read leaves the disk alone. -/
theorem build_of_unreadable {f : Fault} (h : d.read job.source = .error f) :
    job.build d = ⟨d, [], .error (.readSource job.source f)⟩ := by
  unfold Job.build
  rw [h]

namespace Text.Json.Value

def count (n : Nat) : Value := .number (Nat.toDigits 10 n)

def orNull : Option String → Value
  | none => .null
  | some s => .text s

end Text.Json.Value

namespace CommandLine

open Text Text.Json

/-! ## Arguments -/

def jobsFor (files : List Path) (output : Option Path) (zip : Bool) (archive : Option Path) : List Job :=
  files.map fun file => ⟨file, output, zip, archive⟩

def RefusesArchive (files : List Path) (archive : Option Path) : Prop :=
  archive.isSome = true ∧ 1 < files.length

variable {files : List Path} {output : Option Path} {zip : Bool} {archive : Option Path}

theorem files_of_ofReading {name : String} {r : Reading}
    (h : Command.ofReading name r = .ok (.build files output zip archive)) : files ≠ [] := by
  unfold Command.ofReading at h
  split at h
  · cases h
  · rename_i hoperands
    cases h
    intro hnil
    rw [List.map_eq_nil_iff] at hnil
    exact hoperands hnil
  · cases h
  · cases h

/-- There is no build without a file. -/
theorem files_of_parse {args : List String} {i : Invocation} (h : parse args = .ok i)
    (hcommand : i.command = .build files output zip archive) : files ≠ [] := by
  have hread : ∃ name r, Command.ofReading name r = .ok i.command := by
    unfold parse at h
    repeat' split at h
    all_goals try cases h
    rename_i front name args _ _ _ _ _ back _ _
    cases hread : Command.ofReading name back with
    | error stop =>
      rw [hread] at h
      cases h
    | ok command =>
      rw [hread] at h
      cases h
      exact ⟨name, back, hread⟩
  obtain ⟨name, r, hread⟩ := hread
  rw [hcommand] at hread
  exact files_of_ofReading hread

/-! ## Reports -/

structure TellsDiagnostic (v : Value) (d : Diagnostic) : Prop where
  line : v.field? "line" = some (.count d.line)
  kind : v.field? "kind" = some (.text d.kind.word)
  message : v.field? "message" = some (.text d.message)

/-- The value has every part of the result, each under its own name. -/
structure TellsBuilt (v : Value) (b : Built) : Prop where
  source : v.field? "source" = some (.text b.source.text)
  outputRoot : v.field? "output_root" = some (.text b.outputRoot.text)
  root : v.field? "root" = some (.orNull (b.root.map Path.text))
  lines : v.field? "lines" = some (.count b.lines)
  diagnostics : ∃ told, v.field? "diagnostics" = some (.list told) ∧
    List.Forall₂ TellsDiagnostic told b.diagnostics
  unclosed : v.field? "unclosed" = some (.list (b.unclosed.map fun p => .text p.text))
  archive : v.field? "archive" = some (.orNull (b.archive.map Path.text))

/-- The text is one JSON document, with the results of what was built, in order, and with
the error in words, or null if there is none. -/
def IsReport (out : String) (built : List Built) (error : Option BuildError) : Prop :=
  ∃ v, (∀ w, IsDocument out.toList w ↔ w = v) ∧
    v.field? "files_opened" = some (.count built.length) ∧
    (∃ results, v.field? "results" = some (.list results) ∧ List.Forall₂ TellsBuilt results built) ∧
    v.field? "error" = some (.orNull (error.map BuildError.message))

theorem values_map {α : Type} (f : α → Json) (as : List α) :
    values (as.map f) = as.map fun a => (f a).value := by
  induction as with
  | nil => rfl
  | cons a as ih =>
    rw [List.map_cons, values, ih]
    rfl

/-- What is told of each item is told by the values of a list of them, in the same order. -/
theorem forall₂_values {α : Type} {R : Value → α → Prop} {f : α → Json}
    (h : ∀ a, R (f a).value a) (as : List α) : List.Forall₂ R (values (as.map f)) as := by
  rw [values_map, List.forall₂_map_left_iff, List.forall₂_same]
  exact fun a _ => h a

theorem isDocument_report (j : Json) (w : Value) :
    IsDocument (Report.document j).toList w ↔ w = j.value := by
  have htext : (Report.document j).toList = write 2 0 j ++ ['\n'] := by
    simp [Report.document, line, render]
  rw [htext]
  exact isDocument_line 2 j w

theorem value_ofText? (s : Option String) : (Json.ofText? s).value = .orNull s := by
  cases s <;> rfl

theorem tellsDiagnostic_diagnosticJson (d : Diagnostic) :
    TellsDiagnostic (Report.diagnosticJson d).value d := ⟨rfl, rfl, rfl⟩

theorem tellsBuilt_builtJson (b : Built) : TellsBuilt (Report.builtJson b).value b where
  source := rfl
  outputRoot := rfl
  root := congrArg some (value_ofText? _)
  lines := rfl
  diagnostics := ⟨_, rfl, forall₂_values tellsDiagnostic_diagnosticJson _⟩
  unclosed := congrArg (fun vs => some (Value.list vs)) (values_map ..)
  archive := congrArg some (value_ofText? _)

theorem isReport_batchJson (b : Batch) :
    IsReport (Report.document (Report.batchJson b)) b.built b.error :=
  ⟨_, isDocument_report _, rfl, ⟨_, rfl, forall₂_values tellsBuilt_builtJson _⟩,
    congrArg some (value_ofText? _)⟩

/-! ## The program -/

variable {s : Serializer} {i : Invocation} {args : List String}

/-- An archive for several files is refused at once. -/
theorem build_of_refused (h : RefusesArchive files archive) (s : Serializer) (i : Invocation)
    (filter : Log.Filter) (elapsed : String) (d : Disk) :
    build s i filter elapsed d files output zip archive =
      (d, ⟨1, "", errorLine ["--archive can only be used with a single source file"]⟩) := by
  obtain ⟨harchive, hfiles⟩ := h
  unfold build
  rw [if_pos (by simp [harchive, hfiles])]

theorem print_of_writes {value : Json} (h : s.Writes value) :
    Report.print s value = .ok (Report.document value) := by
  unfold Report.print
  rw [h]
  rfl

structure Concludes (s : Serializer) (i : Invocation) (b : Batch) (ran : Disk × Output) : Prop where
  disk : ran.1 = b.disk
  exit : (i.format = .json → s.Writes (Report.batchJson b)) →
    ran.2.exit = if b.error = none then 0 else 1
  report : i.format = .json → s.Writes (Report.batchJson b) → IsReport ran.2.out b.built b.error
  unreported : i.format = .json → ∀ reason, s (Report.batchJson b) = .error reason →
    ran.2.exit = 1 ∧ ran.2.out = ""

/-- Otherwise the batch is run, and its end is told. -/
theorem build_of_not_refused (h : ¬ RefusesArchive files archive) (s : Serializer) (i : Invocation)
    (filter : Log.Filter) (elapsed : String) (d : Disk) :
    Concludes s i (buildAll (jobsFor files output zip archive) d)
      (build s i filter elapsed d files output zip archive) := by
  unfold build jobsFor
  rw [if_neg (by simpa [RefusesArchive] using h)]
  generalize buildAll (files.map fun file => ⟨file, output, zip, archive⟩) d = b
  obtain ⟨disk, events, built, error⟩ := b
  cases hformat : i.format with
  | text =>
    have hjson : i.format ≠ .json := by simp [hformat]
    refine ⟨?_, fun _ => ?_, fun h => absurd h hjson, fun h => absurd h hjson⟩ <;>
      cases error <;> rfl
  | json =>
    dsimp only
    refine ⟨?_, fun hwrites => ?_, fun _ hwrites => ?_, fun _ reason hreason => ?_⟩
    · cases Report.print s (Report.batchJson _) <;> cases error <;> rfl
    · rw [print_of_writes (hwrites hformat)]
      cases error <;> rfl
    · rw [print_of_writes hwrites]
      cases error <;> exact isReport_batchJson _
    · unfold Report.print
      rw [hreason]
      exact ⟨rfl, rfl⟩

theorem run_of_parse (h : parse args = .ok i) (hcommand : i.command = .build files output zip archive)
    (lib : Libraries) (environment : Option String) (elapsed : String) (d : Disk) :
    runWith lib args environment elapsed d =
      build lib.serialize i (effectiveFilter environment i.verbose) elapsed d files output zip archive := by
  simp only [runWith, h, hcommand]

/-- A batch stops at the first job that fails, and the program tells so by its exit code and
by its report. A report that cannot be put in words makes the run a failure. -/
theorem run_stops_at_failure {args : List String} {i : Invocation} {files : List Path}
    {output : Option Path} {zip : Bool} {archive : Option Path} (hparse : parse args = .ok i)
    (hcommand : i.command = .build files output zip archive) (lib : Libraries)
    (environment : Option String) (elapsed : String) (d : Disk) :
    (∀ (first more : List Job) (d : Disk),
      ((buildAll first d).error = none →
        buildAll (first ++ more) d = (buildAll first d).andThen (buildAll more (buildAll first d).disk)) ∧
      ((buildAll first d).error ≠ none → buildAll (first ++ more) d = buildAll first d)) ∧
    (∀ (job : Job) (d : Disk) (f : Fault), d.read job.source = .error f →
      (job.build d).disk = d ∧ (job.build d).result = .error (.readSource job.source f)) ∧
    files ≠ [] ∧
    (RefusesArchive files archive → (runWith lib args environment elapsed d).1 = d ∧
      (runWith lib args environment elapsed d).2.exit = 1) ∧
    (¬ RefusesArchive files archive →
      ∃ b, b = buildAll (jobsFor files output zip archive) d ∧
        (runWith lib args environment elapsed d).1 = b.disk ∧
        (i.format = .json → ∀ reason, lib.serialize (Report.batchJson b) = .error reason →
          (runWith lib args environment elapsed d).2.exit = 1 ∧
            (runWith lib args environment elapsed d).2.out = "") ∧
        ((i.format = .json → lib.serialize.Writes (Report.batchJson b)) →
          ((runWith lib args environment elapsed d).2.exit = 0 ↔ b.built.length = files.length) ∧
          (i.format = .json → IsReport (runWith lib args environment elapsed d).2.out b.built b.error) ∧
          ((runWith lib args environment elapsed d).2.exit = 0 ∧
              Completes (jobsFor files output zip archive) b ∨
            (runWith lib args environment elapsed d).2.exit = 1 ∧
              ∃ before job e, FailsAt (jobsFor files output zip archive) d b before job e))) := by
  rw [run_of_parse hparse hcommand]
  refine ⟨fun first more d => ⟨fun h => buildAll_append_of_built h more, fun h => ?_⟩, ?_,
    files_of_parse hparse hcommand, fun hrefuses => ?_, fun hrefuses => ?_⟩
  · obtain ⟨e, he⟩ := Option.ne_none_iff_exists'.1 h
    exact buildAll_append_of_failed he more
  · intro job d f h
    rw [build_of_unreadable h]
    exact ⟨rfl, rfl⟩
  · rw [build_of_refused hrefuses]
    exact ⟨rfl, rfl⟩
  · have hends : Concludes lib.serialize i (buildAll (jobsFor files output zip archive) d)
        (build lib.serialize i _ elapsed d files output zip archive) :=
      build_of_not_refused hrefuses lib.serialize i (effectiveFilter environment i.verbose) elapsed d
    refine ⟨_, rfl, hends.disk, hends.unreported, fun hwrites => ⟨?_, ?_, ?_⟩⟩
    · have hlength : (jobsFor files output zip archive).length = files.length := List.length_map _
      rw [hends.exit hwrites, ← hlength, ← error_eq_none_iff]
      simp
    · intro hformat
      exact hends.report hformat (hwrites hformat)
    · rw [hends.exit hwrites]
      rcases buildAll_cases (jobsFor files output zip archive) d with h | ⟨before, job, e, h⟩
      · left
        exact ⟨if_pos h.error, h⟩
      · right
        exact ⟨if_neg (by simp [h.error]), before, job, e, h⟩

/-- The second of three scripts is missing: the report has the result of the first, and the
third is left alone. -/
theorem run_stops_at_failure_missing :
    let args := ["build", "--format", "json", "a", "b", "c"]
    let d : Disk := ⟨(FileTree.empty.add [] "a" (.file "#> open x\n".toUTF8)).add [] "c"
      (.file "#> open y\n".toUTF8), ⟨[], 0⟩⟩
    ∃ b : Batch, IsReport (run args none "" d).2.out b.built b.error ∧
      b.built.map (·.source) = [⟨"a"⟩] ∧ b.error = some (.readSource ⟨"b"⟩ .notFound) ∧
      (run args none "" d).2.exit = 1 ∧ (run args none "" d).1.tree.get? ["x"] ≠ none ∧
      (run args none "" d).1.tree.get? ["y"] = none := by
  intro args d
  have hparse : parse args =
      .ok ⟨false, .json, .build [⟨"a"⟩, ⟨"b"⟩, ⟨"c"⟩] none false none⟩ :=
    ok_of_toOption (by decide +kernel)
  have herror : (buildAll (jobsFor [⟨"a"⟩, ⟨"b"⟩, ⟨"c"⟩] none false none) d).error =
      some (.readSource ⟨"b"⟩ .notFound) := by decide +kernel
  obtain ⟨_, _, _, _, hruns⟩ := run_stops_at_failure hparse rfl .plain none "" d
  obtain ⟨b, rfl, hdisk, _, htells⟩ := hruns (by rintro ⟨h, _⟩; cases h)
  obtain ⟨_, hreport, hends⟩ := htells fun _ => Serializer.plain_writes _
  have hrun : run args none "" d = runWith .plain args none "" d := rfl
  rw [hrun]
  refine ⟨_, hreport rfl, by decide +kernel, herror, ?_, ?_, ?_⟩
  · rcases hends with ⟨_, h⟩ | ⟨h, _⟩
    · exact absurd (h.error.symm.trans herror) (by simp)
    · exact h
  · rw [hdisk]
    decide +kernel
  · rw [hdisk]
    decide +kernel

end CommandLine

end Datapack
