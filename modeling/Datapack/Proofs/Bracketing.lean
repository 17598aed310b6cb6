import Datapack.Build
import Datapack.Proofs.Silence

/-
  Datapack.Proofs.Bracketing — opening and closing match like brackets.

  To the stack of open files a line is one of three things (`Move`): an `open` that was not
  skipped puts on it the path that its argument leads to, a `close` that was not skipped takes
  the top off, and any other line leaves it alone. That is all that any line does to the
  stack, whatever happens to the files themselves (`files_executeLine`).

  Along a run an opening stays open if the moves behind it, counted one up and one down, are
  never down by one (`StaysOpen`). The closings that go below what is opened behind them are
  counted by `deficit`, and an opening stays open just if there are none
  (`staysOpen_iff_deficit`). So the stack at the end is what stays open of the run, on top of
  what its deficit has left of the stack at first (`files_runLines`, by induction on the lines).

  `stack_matches` is the outcome for a run that begins with no file open, and for the files
  that a result tells as never closed.
-/

namespace Datapack

open Script

inductive Move where
  | opens (p : Path)
  | closes
  | stays
  deriving DecidableEq, Repr

namespace Move

def apply : Move → OutputStack → OutputStack
  | opens p, files => p :: files
  | closes, files => files.tail
  | stays, files => files

def delta : Move → Int
  | opens _ => 1
  | closes => -1
  | stays => 0

def rise : List Move → Int
  | [] => 0
  | m :: moves => m.delta + rise moves

/-- What is open before these moves is still so after them: they are never down by one. -/
def StaysOpen (later : List Move) : Prop := ∀ before, before <+: later → rise before ≠ -1

/-- How many of the closings close something from before these moves. -/
def deficit : List Move → Nat
  | [] => 0
  | opens _ :: later => deficit later - 1
  | closes :: later => deficit later + 1
  | stays :: later => deficit later

/-! ## Counting -/

/-- The moves are never down by more than `k` just if at most `k` closings reach below them. -/
theorem never_below_iff (moves : List Move) (k : Nat) :
    (∀ before, before <+: moves → rise before ≠ -(k + 1 : Int)) ↔ deficit moves ≤ k := by
  induction moves generalizing k with
  | nil =>
    refine ⟨fun _ => Nat.zero_le k, fun _ before hbefore => ?_⟩
    rw [List.prefix_nil.1 hbefore, rise]
    omega
  | cons m moves ih =>
    -- The first move is made, and the rest is never down by what is left of `k`.
    have hfirst : (∀ before, before <+: m :: moves → rise before ≠ -(k + 1 : Int)) ↔
        ∀ before, before <+: moves → m.delta + rise before ≠ -(k + 1 : Int) := by
      constructor
      · intro h before hbefore
        exact h (m :: before) (List.cons_prefix_cons.2 ⟨rfl, hbefore⟩)
      · intro h before hbefore
        rcases List.prefix_cons_iff.1 hbefore with rfl | ⟨rest, rfl, hrest⟩
        · rw [rise]
          omega
        · exact h rest hrest
    rw [hfirst]
    cases m with
    | opens p =>
      have hrest := ih (k + 1)
      have hsame : ∀ n : Int, 1 + n ≠ -(k + 1 : Int) ↔ n ≠ -((k + 1 : Nat) + 1 : Int) := by omega
      simp only [delta, deficit, hsame, hrest]
      omega
    | stays =>
      simp only [delta, deficit, Int.zero_add, ih k]
    | closes =>
      cases k with
      | zero =>
        simp only [delta, deficit]
        refine ⟨fun h => absurd rfl (h [] List.nil_prefix), fun h => by omega⟩
      | succ k =>
        have hrest := ih k
        have hsame : ∀ n : Int, -1 + n ≠ -((k + 1 : Nat) + 1 : Int) ↔ n ≠ -(k + 1 : Int) := by omega
        simp only [delta, deficit, hsame, hrest]
        omega

theorem staysOpen_iff_deficit {later : List Move} : StaysOpen later ↔ deficit later = 0 := by
  have h := never_below_iff later 0
  rw [Nat.le_zero] at h
  exact h

instance (later : List Move) : Decidable (StaysOpen later) :=
  decidable_of_iff (deficit later = 0) staysOpen_iff_deficit.symm

/-- The paths that are opened and stay open, in the order of their openings. -/
def leftOpen : List Move → List Path
  | [] => []
  | opens p :: later => if StaysOpen later then p :: leftOpen later else leftOpen later
  | closes :: later => leftOpen later
  | stays :: later => leftOpen later

/-- The stack after some moves: what they leave open on top of what they leave of the stack. -/
def stackAfter (files : OutputStack) (moves : List Move) : OutputStack :=
  (leftOpen moves).reverse ++ files.drop (deficit moves)

/-- Nothing is closed that is not open. -/
theorem stackAfter_cons {m : Move} {files : OutputStack} (h : m = closes → files ≠ [])
    (moves : List Move) : stackAfter (m.apply files) moves = stackAfter files (m :: moves) := by
  cases m with
  | stays => rfl
  | closes =>
    obtain ⟨p, files, rfl⟩ := List.exists_cons_of_ne_nil (h rfl)
    rfl
  | opens p =>
    unfold stackAfter
    simp only [apply, leftOpen, deficit, staysOpen_iff_deficit]
    split
    · rename_i hzero
      rw [hzero, List.reverse_cons, List.append_assoc]
      rfl
    · rename_i hne
      obtain ⟨k, hk⟩ := Nat.exists_eq_succ_of_ne_zero hne
      rw [hk, List.drop_succ_cons, Nat.succ_sub_one]

/-- Nothing is left open just if each opening has been closed. -/
theorem leftOpen_eq_nil_iff {moves : List Move} : leftOpen moves = [] ↔
    ∀ first p later, moves = first ++ opens p :: later → ¬StaysOpen later := by
  induction moves with
  | nil => simp [leftOpen]
  | cons m moves ih =>
    have hsplit : (∀ first p later, m :: moves = first ++ opens p :: later → ¬StaysOpen later) ↔
        (∀ p, m = opens p → ¬StaysOpen moves) ∧
          ∀ first p later, moves = first ++ opens p :: later → ¬StaysOpen later := by
      constructor
      · refine fun h => ⟨fun p hm => h [] p moves (by rw [hm]; rfl), fun first p later hmoves => ?_⟩
        exact h (m :: first) p later (by rw [hmoves]; rfl)
      · rintro ⟨hhere, hlater⟩ first p later hmoves
        cases first with
        | nil =>
          cases hmoves
          exact hhere p rfl
        | cons k first =>
          cases hmoves
          exact hlater first p later rfl
    rw [hsplit, ← ih]
    cases m with
    | stays | closes => simp [leftOpen]
    | opens p =>
      rw [leftOpen]
      split
      · rename_i hopen
        simp [hopen]
      · rename_i hopen
        simp [hopen]

end Move

namespace World

open Move

def move (w : World) (line : String) : Move :=
  match classify line, w.records line with
  | .directive (.open raw), [] => match (w.resolve raw .file).path? with
    | some p => .opens p
    | none => .stays
  | .directive .close, [] => .closes
  | _, _ => .stays

def moves (trace : List (World × String)) : List Move := trace.map fun m => m.1.move m.2

variable {w w' v : World} {line : String}

/-! ## One line -/

theorem move_of_recorded (h : w.records line ≠ []) : w.move line = .stays := by
  unfold move
  split
  · rename_i hnil
    exact absurd hnil h
  · rename_i hnil
    exact absurd hnil h
  · rfl

theorem move_of_other (hopen : ∀ raw, classify line ≠ .directive (.open raw))
    (hclose : classify line ≠ .directive .close) : w.move line = .stays := by
  unfold move
  split
  · rename_i hline _
    exact absurd hline (hopen _)
  · rename_i hline _
    exact absurd hline hclose
  · rfl

theorem move_of_close (hline : classify line = .directive .close) (hsilent : w.records line = []) :
    w.move line = .closes := by
  unfold move
  simp only [hline, hsilent]

theorem records_eq_nil_iff : w.records line = [] ↔ diagnosticKinds (w.executeLine line).2 = [] := by
  rw [← records_kinds, List.map_eq_nil_iff]

/-- A directive makes the move of its line. -/
theorem Does.files_move {d : Directive} (hline : classify line = .directive d)
    (h : w.Does d w' (diagnosticKinds (w.executeLine line).2)) :
    w'.session.files = (w.move line).apply w.session.files ∧
      (w.move line = .closes → w.session.files ≠ []) := by
  have stays : w'.session.files = w.session.files → w.move line = .stays →
      w'.session.files = (w.move line).apply w.session.files ∧
        (w.move line = .closes → w.session.files ≠ []) := by
    intro hfiles hmove
    rw [hmove, hfiles]
    exact ⟨rfl, nofun⟩
  have recorded : ∀ {kinds : List DiagnosticKind}, diagnosticKinds (w.executeLine line).2 = kinds →
      kinds ≠ [] → w.move line = .stays := by
    intro kinds hkinds hne
    exact move_of_recorded fun hnil => hne (hkinds ▸ records_eq_nil_iff.1 hnil)
  generalize hkinds : diagnosticKinds (w.executeLine line).2 = kinds at h
  cases h with
  | skipped | initFailed | mkdirFailed | openFailed =>
    exact stays rfl (recorded hkinds (by simp))
  | rootUnset | root | home | sethomeHere | sethome | init | cd | mkdir | rmdir | clear | del | log =>
    exact stays rfl (move_of_other (by simp [hline]) (by simp [hline]))
  | @«open» raw p hp _ =>
    have hmove : w.move line = .opens p := by
      unfold move
      simp only [hline, records_eq_nil_iff.2 hkinds, hp]
    rw [hmove]
    exact ⟨rfl, nofun⟩
  | @close p files hfiles =>
    rw [move_of_close hline (records_eq_nil_iff.2 hkinds), hfiles]
    exact ⟨rfl, fun _ => List.cons_ne_nil _ _⟩

/-- What a line does to the stack is its move, and it closes nothing if nothing is open. -/
theorem files_executeLine (w : World) (line : String) :
    (w.executeLine line).1.session.files = (w.move line).apply w.session.files ∧
      (w.move line = .closes → w.session.files ≠ []) := by
  have stays : (w.executeLine line).1.session = w.session → (∀ d, classify line ≠ .directive d) →
      (w.executeLine line).1.session.files = (w.move line).apply w.session.files ∧
        (w.move line = .closes → w.session.files ≠ []) := by
    intro hsession hline
    rw [move_of_other (fun _ => hline _) (hline _), hsession]
    exact ⟨rfl, nofun⟩
  cases hline : classify line with
  | directive d =>
    have hstep : w.executeLine line = w.execute d := by
      unfold executeLine
      rw [hline]
    have hdoes : w.Does d (w.execute d).1 (diagnosticKinds (w.execute d).2) := w.execute_does d
    rw [← hstep] at hdoes
    exact hdoes.files_move hline
  | blank =>
    refine stays ?_ (by simp [hline])
    unfold executeLine
    rw [hline]
  | malformed e =>
    refine stays ?_ (by simp [hline])
    unfold executeLine
    rw [hline]
    rfl
  | content text =>
    refine stays ?_ (by simp [hline])
    unfold executeLine
    rw [hline]
    rcases w.writeText_cases text with h | ⟨_, _, _, _, _, h⟩ <;> simp [h]

/-- An `open` that is not skipped puts the path of its argument on the stack. -/
theorem move_of_open {raw : String} (hline : classify line = .directive (.open raw))
    (hsilent : w.records line = []) :
    ∃ p, (w.resolve raw .file).path? = some p ∧ w.move line = .opens p := by
  have hdoes := does_of_silent hline hsilent
  generalize (w.executeLine line).1 = w' at hdoes
  cases hdoes with
  | @«open» _ p hp _ =>
    refine ⟨p, hp, ?_⟩
    unfold move
    simp only [hline, hsilent, hp]

/-- What a line is to the stack, by what it asks for and whether it is skipped. -/
theorem line_moves (w : World) (line : String) :
    ((∀ raw, classify line ≠ .directive (.open raw)) ∧ classify line ≠ .directive .close ∨
        w.records line ≠ [] →
      w.move line = .stays ∧ (w.executeLine line).1.session.files = w.session.files) ∧
    (∀ raw, classify line = .directive (.open raw) → w.records line = [] →
      ∃ p, (w.resolve raw .file).path? = some p ∧ w.move line = .opens p ∧
        (w.executeLine line).1.session.files = p :: w.session.files) ∧
    (classify line = .directive .close → w.records line = [] →
      ∃ p, w.move line = .closes ∧ w.session.files = p :: (w.executeLine line).1.session.files) := by
  obtain ⟨hfiles, hclose⟩ := w.files_executeLine line
  refine ⟨?_, ?_, ?_⟩
  · intro hother
    have hmove : w.move line = .stays := by
      rcases hother with ⟨hnotOpen, hnotClose⟩ | hrecorded
      · exact move_of_other hnotOpen hnotClose
      · exact move_of_recorded hrecorded
    refine ⟨hmove, ?_⟩
    rw [hfiles, hmove]
    rfl
  · intro raw hline hsilent
    obtain ⟨p, hp, hmove⟩ := move_of_open hline hsilent
    refine ⟨p, hp, hmove, ?_⟩
    rw [hfiles, hmove]
    rfl
  · intro hline hsilent
    have hmove := move_of_close hline hsilent
    obtain ⟨p, files, hp⟩ := List.exists_cons_of_ne_nil (hclose hmove)
    refine ⟨p, hmove, ?_⟩
    rw [hfiles, hmove, hp]
    rfl

/-- A `close` is skipped just if nothing is open. -/
theorem close_skipped_iff (hline : classify line = .directive .close) :
    .skipped ∈ (w.records line).map Diagnostic.kind ↔ w.session.files = [] := by
  have hstep : w.executeLine line = w.execute .close := by
    unfold executeLine
    rw [hline]
  rw [records_kinds, hstep]
  unfold execute perform closeFile
  cases w.session.files with
  | nil => simp [skip]
  | cons p files => simp [tell]

/-! ## Runs -/

/-- Each line of a run finds the stack that the moves before it have left. -/
theorem files_of_trace {lines : List String} {n : Nat} {before after : List (World × String)}
    (h : w.trace n lines = before ++ (v, line) :: after) :
    v.session.files = stackAfter w.session.files (moves before) := by
  induction before generalizing w n lines with
  | nil =>
    cases lines with
    | nil => cases h
    | cons first rest =>
      cases h
      rfl
  | cons m before ih =>
    cases lines with
    | nil => cases h
    | cons first rest =>
      obtain ⟨rfl, hrest⟩ := List.cons.inj h
      obtain ⟨hfiles, hclose⟩ := files_executeLine { w with session.line := n + 1 } first
      rw [ih hrest, hfiles]
      exact stackAfter_cons hclose _

/-- What a run leaves of the stack, and what it puts on it. -/
theorem files_runLines (w : World) (n : Nat) (lines : List String) :
    (w.runLines n lines).1.session.files =
      stackAfter w.session.files (moves (w.trace n lines)) := by
  induction lines generalizing w n with
  | nil => rfl
  | cons line rest ih =>
    obtain ⟨hfiles, hclose⟩ := files_executeLine { w with session.line := n + 1 } line
    have hrest := ih ({ w with session.line := n + 1 }.executeLine line).1 (n + 1)
    rw [hfiles] at hrest
    exact hrest.trans (stackAfter_cons hclose _)

theorem stackAfter_nil (moves : List Move) : stackAfter [] moves = (leftOpen moves).reverse := by
  rw [stackAfter, List.drop_nil, List.append_nil]

end World

open Move World

/-- What a result tells as never closed is the stack at the end of the run. -/
theorem Job.unclosed_of_executeIn {job : Job} {d : Disk} {root : Path} {source : String × Option Nat}
    {built : Built} (h : (job.executeIn d root source).result = .ok built) :
    built.unclosed = ((noteReplacement ⟨d, .begin root (some root)⟩ source.2).1.run
      source.1).1.session.files.oldestFirst := by
  obtain ⟨_, rfl⟩ := Job.built_of_executeIn h
  rfl

/-- Opening and closing match like brackets. A run that begins with no file open ends with
those open whose opening stays so in what follows it, in the order of their openings, and a
result tells them so. A `close` is skipped just if each opening before it has been closed
already. And a line that is neither an `open` nor a `close`, or is skipped, leaves the stack
alone; the others put the path of their argument on it, or take off what is on top. -/
theorem stack_matches {w : World} (hopen : w.session.files = []) (source : String) :
    let trace := w.trace 0 (Text.lines source)
    (w.run source).1.session.files.oldestFirst = leftOpen (moves trace) ∧
    (∀ (job : Job) (d : Disk) (root : Path) (damaged : Option Nat) (built : Built),
      w = (noteReplacement ⟨d, .begin root (some root)⟩ damaged).1 →
      (job.executeIn d root (source, damaged)).result = .ok built →
        built.unclosed = leftOpen (moves trace)) ∧
    (∀ before v line after, trace = before ++ (v, line) :: after →
      classify line = .directive .close →
        (.skipped ∈ (v.records line).map Diagnostic.kind ↔
          ∀ first p later, moves before = first ++ .opens p :: later → ¬StaysOpen later)) ∧
    ∀ m ∈ trace,
      ((∀ raw, classify m.2 ≠ .directive (.open raw)) ∧ classify m.2 ≠ .directive .close ∨
          m.1.records m.2 ≠ [] →
        m.1.move m.2 = .stays ∧ (m.1.executeLine m.2).1.session.files = m.1.session.files) ∧
      (∀ raw, classify m.2 = .directive (.open raw) → m.1.records m.2 = [] →
        ∃ p, (m.1.resolve raw .file).path? = some p ∧ m.1.move m.2 = .opens p ∧
          (m.1.executeLine m.2).1.session.files = p :: m.1.session.files) ∧
      (classify m.2 = .directive .close → m.1.records m.2 = [] →
        ∃ p, m.1.move m.2 = .closes ∧
          m.1.session.files = p :: (m.1.executeLine m.2).1.session.files) := by
  intro trace
  have hend : (w.run source).1.session.files = (leftOpen (moves trace)).reverse := by
    rw [← stackAfter_nil, ← hopen]
    exact w.files_runLines 0 (Text.lines source)
  have holdest : (w.run source).1.session.files.oldestFirst = leftOpen (moves trace) := by
    rw [OutputStack.oldestFirst, hend, List.reverse_reverse]
  refine ⟨holdest, ?_, ?_, ?_⟩
  · rintro job d root damaged built rfl hresult
    rw [Job.unclosed_of_executeIn hresult]
    exact holdest
  · intro before v line after htrace hline
    rw [close_skipped_iff hline, files_of_trace htrace, hopen, stackAfter_nil,
      List.reverse_eq_nil_iff, leftOpen_eq_nil_iff]
  · exact fun m _ => m.1.line_moves m.2

/-- Two files are opened, the one is deleted, both are closed; closing once more is skipped, and
another file that is opened then stays open. -/
theorem stack_matches_nested :
    let t := FileTree.empty.add [] "p" .dir
    let w : World := ⟨⟨t, ⟨[], 0⟩⟩, .begin ⟨"/p"⟩ (some ⟨"/p"⟩)⟩
    let source := "#> open a\n#> open b\n#> del b\n#> close\n#> close\n#> close\n#> open c\ntext"
    w.session.files = [] ∧
      moves (w.trace 0 (Text.lines source)) =
        [.opens ⟨"/p/a"⟩, .opens ⟨"/p/b"⟩, .stays, .closes, .closes, .stays, .opens ⟨"/p/c"⟩, .stays] ∧
      (w.run source).1.session.files.oldestFirst = [⟨"/p/c"⟩] := by
  intro t w source
  have hmoves : moves (w.trace 0 (Text.lines source)) =
      [.opens ⟨"/p/a"⟩, .opens ⟨"/p/b"⟩, .stays, .closes, .closes, .stays, .opens ⟨"/p/c"⟩, .stays] := by
    decide +kernel
  have hend := (stack_matches (w := w) rfl source).1
  rw [hmoves] at hend
  exact ⟨rfl, hmoves, hend⟩

end Datapack
