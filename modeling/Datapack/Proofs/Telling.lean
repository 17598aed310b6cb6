import Datapack.Proofs.Diagnostics
import Datapack.Proofs.Stopping

/-
  Datapack.Proofs.Telling — the two accounts of a run: its diagnostics and its log.

  A session collects diagnostics, and tells about its work as it goes along; only the notes
  of its steps hold the two together. What a line notes besides diagnostics is quiet, so it
  cannot be taken for one (`World.discreet_executeLine`). Hence a log tells the diagnostics,
  each once and in order, with quiet events between them (`Tells`): that of a text, of a job,
  and of a batch, where it goes on from script to script (`buildAll_tells`). Whatever passes
  over quiet events sees in the log the diagnostics alone (`Tells.filter`).

  What scripts say are the diagnostics of their `log` lines (`World.saidIn_run`), so it can be
  read off the texts, each line once and in its place.
-/

namespace Datapack

open Script

namespace Log.Event

/-- Whether the event tells a diagnostic: what a script says, or what is said of a line
and nothing else. -/
def isReport (e : Event) : Bool :=
  e.part = .script || e.part = .session && e.fields.map Prod.fst = ["line"]

/-- The event tells no diagnostic, and matters less than a warning. -/
def Quiet (e : Event) : Prop := e.isReport = false ∧ e.level ≠ .error ∧ e.level ≠ .warn

end Log.Event

def Diagnostic.event (r : Diagnostic) : Log.Event := Note.ofKind r.line r.message r.kind

/-- The events tell the diagnostics, each once and in order, and are quiet otherwise. -/
inductive Tells : List Log.Event → List Diagnostic → Prop
  | nil : Tells [] []
  | quiet {e : Log.Event} {es : List Log.Event} {rs : List Diagnostic} :
      e.Quiet → Tells es rs → Tells (e :: es) rs
  | report {es : List Log.Event} {rs : List Diagnostic} (r : Diagnostic) :
      Tells es rs → Tells (r.event :: es) (r :: rs)

/-! ## Two accounts -/

namespace Tells

variable {es es' : List Log.Event} {rs rs' : List Diagnostic}

theorem append (h : Tells es rs) (h' : Tells es' rs') : Tells (es ++ es') (rs ++ rs') := by
  induction h with
  | nil => exact h'
  | quiet he _ ih => exact .quiet he ih
  | report r _ ih => exact .report r ih

theorem of_quiet (h : ∀ e ∈ es, e.Quiet) : Tells es [] := by
  induction es with
  | nil => exact .nil
  | cons e es ih => exact .quiet (h e List.mem_cons_self) (ih fun e he => h e (List.mem_cons_of_mem _ he))

theorem append_quiet (h : Tells es rs) (h' : ∀ e ∈ es', e.Quiet) : Tells (es ++ es') rs := by
  have happend := h.append (of_quiet h')
  rwa [List.append_nil] at happend

/-- Whatever passes over quiet events sees the diagnostics in the log, and nothing else. -/
theorem filter {q : Log.Event → Bool} (h : Tells es rs) (hquiet : ∀ e, e.Quiet → q e = false) :
    es.filter q = (rs.filter fun r => q r.event).map Diagnostic.event := by
  induction h with
  | nil => rfl
  | quiet he _ ih => rw [List.filter_cons_of_neg (by simp [hquiet _ he]), ih]
  | @report es rs r _ ih =>
    rw [List.filter_cons, List.filter_cons, ih]
    split <;> rfl

end Tells

/-! ## One line -/

def Discreet (notes : List Note) : Prop := ∀ e, .event e ∈ notes → e.Quiet

@[simp] theorem discreet_nil : Discreet [] := nofun

@[simp] theorem discreet_event (e : Log.Event) (notes : List Note) :
    Discreet (.event e :: notes) ↔ e.Quiet ∧ Discreet notes := by
  simp [Discreet]

@[simp] theorem discreet_diagnostic (kind : DiagnosticKind) (message : String) (notes : List Note) :
    Discreet (.diagnostic kind message :: notes) ↔ Discreet notes := by
  simp [Discreet]

@[simp] theorem discreet_append (a b : List Note) : Discreet (a ++ b) ↔ Discreet a ∧ Discreet b := by
  simp [Discreet, or_imp, forall_and]

@[simp] theorem quiet_mk (level : Log.Level) (part : Log.Part) (message : String)
    (fields : List (String × String)) : (⟨level, part, message, fields⟩ : Log.Event).Quiet ↔
      (part ≠ .script ∧ (part = .session → fields.map Prod.fst ≠ ["line"])) ∧
        level ≠ .error ∧ level ≠ .warn := by
  simp [Log.Event.Quiet, Log.Event.isReport]

namespace World

@[simp] theorem discreet_tell (w : World) (level : Log.Level) (part : Log.Part) (message : String)
    (fields : List (String × String)) (notes : List Note) :
    Discreet (w.tell level part message fields :: notes) ↔
      Log.Event.Quiet ⟨level, part, message, ("line", w.lineText) :: fields⟩ ∧ Discreet notes :=
  discreet_event _ _

@[simp] theorem discreet_skip (w : World) (message : String) : Discreet (w.skip message).2 := by
  simp [skip]

@[simp] theorem discreet_moveTo (w : World) (p : Path) : Discreet (w.moveTo p).2 := by
  simp [moveTo]

@[simp] theorem discreet_setRoot (w : World) (p : Path) : Discreet (w.setRoot p).2 := by
  simp [setRoot]

@[simp] theorem discreet_setHome (w : World) (p : Path) : Discreet (w.setHome p).2 := by
  simp [setHome]

theorem discreet_goRoot (w : World) : Discreet w.goRoot.2 := by
  unfold goRoot
  split
  · simp
  · split <;> simp

theorem discreet_goHome (w : World) : Discreet w.goHome.2 := by
  unfold goHome
  split
  · simp
  · split <;> simp

theorem discreet_changeHome (w : World) (path : Option String) : Discreet (w.changeHome path).2 := by
  unfold changeHome
  split
  · simp only
    split <;> simp
  · split <;> simp

theorem discreet_createdBy (steps : List LayoutStep) : Discreet (createdBy steps) := by
  intro e he
  obtain ⟨step, _, hstep⟩ := List.mem_filterMap.1 he
  cases step with
  | dir p =>
    cases hstep
    simp
  | file p bytes => cases hstep

theorem discreet_enter (w : World) (s : Skeleton) (ns : String) : Discreet (w.enter s ns).2 := by
  simp [enter]

theorem discreet_layOut (w : World) (options : SkeletonOptions) : Discreet (w.layOut options).1.2 := by
  unfold layOut
  simp only
  split
  · exact discreet_createdBy _
  · simp [discreet_createdBy, discreet_enter]

theorem discreet_initialise (w : World) (ns : String) (format description : Option String) :
    Discreet (w.initialise ns format description).2 := by
  unfold initialise
  split
  · simp
  · rename_i options _
    have h := w.discreet_layOut options
    split
    · rename_i hstep
      rw [hstep] at h
      exact h
    · rename_i hstep
      rw [hstep] at h
      simpa using h

theorem discreet_changeDir (w : World) (raw : String) : Discreet (w.changeDir raw).2 := by
  unfold changeDir
  split <;> simp

theorem discreet_makeDir (w : World) (raw : String) : Discreet (w.makeDir raw).2 := by
  unfold makeDir
  split
  · split <;> simp [created]
  · simp
  · simp

theorem discreet_removeDir (w : World) (name raw : String) (self : Bool) :
    Discreet (w.removeDir name raw self).2 := by
  unfold removeDir
  split
  · simp
  · simp
  · rename_i p _
    have steps : ∀ steps : List RemovalStep, Discreet (steps.map removalNote) := by
      intro steps e he
      obtain ⟨step, _, hstep⟩ := List.mem_map.1 he
      cases step <;> (cases hstep; simp)
    have failures : ∀ failures : List (Path × String), Discreet (failures.map fun failure =>
        .diagnostic .suppressed (name ++ ": " ++ Removal.failureText failure)) := by
      intro failures e he
      simp at he
    have outcome : ∀ r : Removal, Discreet [w.removalOutcome name p r] := by
      intro r
      unfold removalOutcome
      split <;> simp
    simp only [discreet_append]
    exact ⟨⟨steps _, failures _⟩, outcome _⟩

theorem discreet_openFile (w : World) (raw : String) : Discreet (w.openFile raw).2 := by
  unfold openFile
  split
  · simp
  all_goals
    simp only
    split <;> simp

theorem discreet_closeFile (w : World) : Discreet w.closeFile.2 := by
  unfold closeFile
  split
  · simp
  · simp

theorem discreet_deleteFile (w : World) (raw : String) : Discreet (w.deleteFile raw).2 := by
  unfold deleteFile
  split
  · split <;> simp
  · simp
  · simp

theorem discreet_perform (w : World) (d : Directive) : Discreet (w.perform d).2 := by
  cases d with
  | root => exact w.discreet_goRoot
  | home => exact w.discreet_goHome
  | sethome path => exact w.discreet_changeHome path
  | init ns format description => exact w.discreet_initialise ns format description
  | cd path => exact w.discreet_changeDir path
  | mkdir path => exact w.discreet_makeDir path
  | rmdir path =>
    rw [perform]
    exact w.discreet_removeDir _ _ _
  | clear path =>
    rw [perform]
    exact w.discreet_removeDir _ _ _
  | «open» path => exact w.discreet_openFile path
  | close => exact w.discreet_closeFile
  | del path => exact w.discreet_deleteFile path
  | log message => simp [perform]

theorem discreet_writeText (w : World) (text : String) : Discreet (w.writeText text).2 := by
  unfold writeText
  simp only
  split <;> simp

/-- All that a line tells besides diagnostics is quiet. -/
theorem discreet_executeLine (w : World) (line : String) : Discreet (w.executeLine line).2 := by
  unfold executeLine
  split
  · simp
  · rename_i d _
    simp only [execute, discreet_tell]
    exact ⟨by simp, w.discreet_perform d⟩
  · simp
  · exact w.discreet_writeText _

theorem discreet_runLines (w : World) (n : Nat) (lines : List String) :
    Discreet ((w.runLines n lines).2.map Prod.snd) := by
  induction lines generalizing w n with
  | nil => exact discreet_nil
  | cons line rest ih =>
    simp only [runLines, List.map_append, List.map_map, discreet_append]
    refine ⟨?_, ih _ _⟩
    have h := discreet_executeLine { w with session.line := n + 1 } line
    simpa [Function.comp_def] using h

end World

/-- The two accounts that are made of notes. -/
theorem tells_notes {notes : List (Nat × Note)} (h : Discreet (notes.map Prod.snd)) :
    Tells (events notes) (diagnostics notes) := by
  induction notes with
  | nil => exact .nil
  | cons note notes ih =>
    obtain ⟨n, note⟩ := note
    cases note with
    | diagnostic kind message =>
      rw [List.map_cons, discreet_diagnostic] at h
      exact .report ⟨n, kind, message⟩ (ih h)
    | event e =>
      rw [List.map_cons, discreet_event] at h
      exact .quiet h.1 (ih h.2)

/-! ## What scripts say -/

/-- What the line number `n` says: the message of a `log`, and else nothing. -/
def saying (line : String) (n : Nat) : List (Nat × String) :=
  match classify line with
  | .directive (.log message) => [(n, message)]
  | _ => []

def sayings (source : String) : List (Nat × String) :=
  ((Text.lines source).zipIdx 1).flatMap fun (line, n) => saying line n

def saidIn (reports : List Diagnostic) : List (Nat × String) :=
  (reports.filter (·.kind = .log)).map fun r => (r.line, r.message)

theorem saidIn_append (a b : List Diagnostic) : saidIn (a ++ b) = saidIn a ++ saidIn b := by
  unfold saidIn
  rw [List.filter_append, List.map_append]

namespace World

theorem Reported.directive_of_log {l : Line} {kinds : List DiagnosticKind} (h : Reported l kinds)
    (hlog : .log ∈ kinds) : ∃ message, l = .directive (.log message) := by
  cases h with
  | log message => exact ⟨message, rfl⟩
  | silent | skipped | rmdir | clear => simp at hlog

/-- A line says what its `log` says, and others say nothing. -/
theorem saidIn_records (w : World) (line : String) :
    saidIn (w.records line) = saying line w.session.line := by
  by_cases hlog : ∃ message, classify line = .directive (.log message)
  · obtain ⟨message, hline⟩ := hlog
    have hrecords : w.records line = [⟨w.session.line, .log, message⟩] := by
      unfold records executeLine
      rw [hline]
      rfl
    unfold saying
    rw [hrecords, hline]
    rfl
  · have hnone : saying line w.session.line = [] := by
      unfold saying
      split
      · rename_i message hline
        exact absurd ⟨message, hline⟩ hlog
      · rfl
    have hreported := w.executeLine_reported line
    rw [← records_kinds] at hreported
    have hempty : (w.records line).filter (·.kind = .log) = [] := by
      rw [List.filter_eq_nil_iff]
      intro r hr hkind
      have hin : .log ∈ (w.records line).map Diagnostic.kind :=
        List.mem_map.2 ⟨r, hr, of_decide_eq_true hkind⟩
      exact hlog (hreported.directive_of_log hin)
    unfold saidIn
    rw [hempty, hnone]
    rfl

theorem saidIn_run (w : World) (source : String) :
    saidIn (diagnostics (w.run source).2) = sayings source := by
  have hlines : saidIn (diagnostics (w.run source).2) =
      ((w.trace 0 (Text.lines source)).map fun m => (m.2, m.1.session.line)).flatMap
        fun m => saying m.1 m.2 := by
    unfold run
    rw [diagnostics_runLines, List.flatMap_map]
    unfold saidIn
    rw [List.filter_flatMap, List.map_flatMap]
    exact congrArg (List.flatMap · _) (funext fun m => m.1.saidIn_records m.2)
  rw [hlines, trace_numbers]
  rfl

end World

/-! ## Jobs -/

namespace Job

variable {job : Job} {d d' : Disk}

theorem quiet_packingEvents {ε : Type} {p : Packing ε} {e : Log.Event} (h : e ∈ packingEvents p) : e.Quiet := by
  unfold packingEvents at h
  rcases List.mem_append.1 h with h | h
  · obtain ⟨name, _, rfl⟩ := List.mem_map.1 h
    simp
  · split at h
    · rw [List.mem_singleton.1 h]
      simp
    · cases h

theorem quiet_pack {dir : Path} {e : Log.Event} (h : e ∈ (job.pack d dir).2.1) : e.Quiet := by
  unfold pack at h
  split at h
  · split at h
    · cases h
    · exact quiet_packingEvents h
  · cases h

theorem quiet_openEvents {files : OutputStack} {e : Log.Event} (h : e ∈ openEvents files) :
    e.Quiet := by
  unfold openEvents at h
  split at h
  · cases h
  · rw [List.mem_singleton.1 h]
    simp

def notes (d : Disk) (root : Path) (source : String × Option Nat) : List (Nat × Note) :=
  let begun := World.noteReplacement ⟨d, .begin root (some root)⟩ source.2
  begun.2 ++ (begun.1.run source.1).2

theorem discreet_notes (d : Disk) (root : Path) (source : String × Option Nat) :
    Discreet ((notes d root source).map Prod.snd) := by
  unfold notes
  simp only [List.map_append, discreet_append]
  refine ⟨?_, World.discreet_runLines _ _ _⟩
  unfold World.noteReplacement
  split <;> simp

theorem saidIn_notes (d : Disk) (root : Path) (source : String × Option Nat) :
    saidIn (diagnostics (notes d root source)) = sayings source.1 := by
  unfold notes
  simp only [World.diagnostics_append, saidIn_append, World.saidIn_run]
  unfold World.noteReplacement
  split <;> rfl

/-- What a job tells is what its notes come to. -/
theorem tells_executeIn (job : Job) (d : Disk) (root : Path) (source : String × Option Nat) :
    Tells (job.executeIn d root source).events (diagnostics (notes d root source)) := by
  have hbegin : (job.beginEvent root).Quiet := by simp [beginEvent]
  have hnotes := tells_notes (discreet_notes d root source)
  have htold : ∀ {files : OutputStack} {d' : Disk} {dir : Path}, Tells
      (job.beginEvent root :: (events (notes d root source) ++ openEvents files) ++
        (job.pack d' dir).2.1) (diagnostics (notes d root source)) := by
    intro files d' dir
    refine Tells.append_quiet (.quiet hbegin (hnotes.append_quiet ?_)) ?_
    · exact fun _ => quiet_openEvents
    · exact fun _ => quiet_pack
  unfold executeIn
  exact htold

theorem diagnostics_executeIn {root : Path} {source : String × Option Nat} {built : Built}
    (h : (job.executeIn d root source).result = .ok built) :
    built.diagnostics = diagnostics (notes d root source) := by
  obtain ⟨_, rfl⟩ := built_of_executeIn h
  rfl

/-- What a job's script says, if it can be read and there is somewhere to execute it. -/
def said (job : Job) (d : Disk) : List (Nat × String) :=
  match d.read job.source, (job.prepareRoot d).2 with
  | .ok bytes, .ok _ => sayings (decodeSource bytes).1
  | _, _ => []

/-- A job's log tells its diagnostics, which are those of its result if there is one. -/
theorem build_tells (job : Job) (d : Disk) : ∃ reports, Tells (job.build d).events reports ∧
    saidIn reports = job.said d ∧
    ∀ built, (job.build d).result = .ok built → built.diagnostics = reports := by
  unfold build said
  cases d.read job.source with
  | error f => exact ⟨[], .nil, rfl, nofun⟩
  | ok bytes =>
    simp only
    obtain ⟨d', result⟩ := job.prepareRoot d
    cases result with
    | error e => exact ⟨[], .nil, rfl, nofun⟩
    | ok root =>
      exact ⟨_, job.tells_executeIn d' root _, saidIn_notes d' root _, fun _ => diagnostics_executeIn⟩

end Job

/-- What the scripts of a batch say, up to the first job that fails. -/
def said : List Job → Disk → List (Nat × String)
  | [], _ => []
  | job :: jobs, d => job.said d ++
    match (job.build d).result with
    | .ok _ => said jobs (job.build d).disk
    | .error _ => []

/-- The log of a batch tells the diagnostics of its jobs; if all were built, those of the
results. -/
theorem buildAll_tells (jobs : List Job) (d : Disk) :
    ∃ reports, Tells (buildAll jobs d).events reports ∧ saidIn reports = said jobs d ∧
      ((buildAll jobs d).error = none →
        reports = (buildAll jobs d).built.flatMap (·.diagnostics)) := by
  induction jobs generalizing d with
  | nil => exact ⟨[], .nil, rfl, fun _ => rfl⟩
  | cons job jobs ih =>
    obtain ⟨reports, htells, hsaid, hresult⟩ := job.build_tells d
    cases hbuild : job.build d with
    | mk d' events result =>
      rw [hbuild] at htells hresult
      cases result with
      | error e =>
        -- The diagnostics of a job that fails are told, though they are in no result.
        rw [buildAll_cons_error hbuild]
        refine ⟨reports, htells, ?_, nofun⟩
        simp [said, hbuild, hsaid]
      | ok built =>
        obtain ⟨later, hlater, hsaidLater, hall⟩ := ih d'
        rw [buildAll_cons_ok hbuild]
        refine ⟨reports ++ later, htells.append hlater, ?_, ?_⟩
        · simp [said, hbuild, hsaid, saidIn_append, hsaidLater]
        · intro herror
          rw [← hresult built rfl, hall herror]
          rfl

end Datapack
