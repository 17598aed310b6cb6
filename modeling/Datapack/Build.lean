import Datapack.Text.Utf8
import Datapack.Execution
import Datapack.Archive.Package

/-
  Datapack.Build — building datapacks from scripts.

  A job names a script, the directory its output goes to (that of the script, if none is
  named) and whether to pack the result. The script is read as UTF-8 with ill-formed
  parts replaced; the first line that has a replacement gets a diagnostic. It is executed
  in a session of its own, which begins in the output directory.

  Only three things end a job: a script that cannot be read, an output directory that
  cannot be made, and a packing that fails. A batch of jobs stops at the first that
  fails; what was built before stays.
-/

namespace Datapack

structure Job where
  source : Path
  outputRoot : Option Path
  package : Bool
  /-- Where the archive goes; naming it asks for packing as well. -/
  archive : Option Path
  deriving DecidableEq, Repr

inductive BuildError where
  | readSource (p : Path) (f : Fault)
  | outputRoot (p : Path) (f : Fault)
  | package (dir : Path) (e : PackError)
  deriving DecidableEq, Repr

namespace BuildError

def message : BuildError → String
  | readSource p f => "failed to read source file " ++ p.text ++ ": " ++ f.message
  | outputRoot p f => "failed to prepare output root " ++ p.text ++ ": " ++ f.message
  | package dir e => "failed to package " ++ dir.text ++ ": " ++ e.message

/-- The errors behind it, nearest first, in words. -/
def causes : BuildError → List String
  | readSource _ f | outputRoot _ f => [f.message]
  | package _ e => e.message :: e.causes

end BuildError

structure Built where
  source : Path
  outputRoot : Path
  /-- The root when the script ended. -/
  root : Option Path
  lines : Nat
  diagnostics : List Diagnostic
  /-- The files that were never closed, the one opened first in front. -/
  unclosed : List Path
  archive : Option Path
  deriving DecidableEq, Repr

structure JobOutcome where
  disk : Disk
  events : List Log.Event
  result : Except BuildError Built

structure Batch where
  disk : Disk
  events : List Log.Event
  /-- The jobs that were built, in order. -/
  built : List Built
  error : Option BuildError

/-! ## The script's text -/

/-- The text of a script, and the first line in which something had to be replaced. -/
def decodeSource (bytes : ByteArray) : String × Option Nat :=
  let octets := Text.Utf8.dropMark bytes.data.toList
  let text := Text.Utf8.readLossy octets
  if Text.Utf8.isWellFormed octets then (text, none)
  else (text, ((Text.lines text).findIdx? fun line =>
    line.toList.contains Text.Utf8.replacement).map (· + 1))

def World.noteReplacement (w : World) : Option Nat → World × List (Nat × Note)
  | none => (w, [])
  | some line =>
    ({ w with session.line := line },
      [(line, .diagnostic .skipped "source is not valid UTF-8, invalid bytes were replaced")])

/-! ## One job -/

namespace Job

def requestedRoot (job : Job) : Path :=
  match job.outputRoot with
  | some root => root
  | none => match job.source.parent? with
    | some ⟨""⟩ | none => ⟨"."⟩
    | some dir => dir

def prepareRoot (job : Job) (d : Disk) : Disk × Except BuildError Path :=
  let p := job.requestedRoot
  match d.makeDirs p with
  | (d, .error f) => (d, .error (.outputRoot p f))
  | (d, .ok ()) => match d.canonical p with
    | .ok root => (d, .ok root)
    | .error f => (d, .error (.outputRoot p f))

def wantsPackage (job : Job) : Bool := job.package || job.archive.isSome

def packingEvents {ε : Type} (p : Packing ε) : List Log.Event :=
  p.archived.map (fun name => ⟨.debug, .archive, "archived", [("entry", name)]⟩) ++
  match p.result with
  | .ok r => [⟨.info, .archive, "datapack packaged",
      [("archive", r.archive.text), ("files", toString r.files)]⟩]
  | .error _ => []

def pack (job : Job) (d : Disk) (dir : Path) :
    Disk × List Log.Event × Except PackError (Option Path) :=
  if job.wantsPackage then
    match Archive.choosePath job.archive dir with
    | .error e => (d, [], .error e)
    | .ok archive =>
      let p := Archive.package d dir archive
      (p.disk, packingEvents p, p.result.map fun r => some r.archive)
  else (d, [], .ok none)

def openEvents (files : OutputStack) : List Log.Event :=
  if files = [] then []
  else [⟨.debug, .compiler, "files left open at end of source", [("count", toString files.length)]⟩]

def beginEvent (job : Job) (root : Path) : Log.Event :=
  ⟨.info, .compiler, "compiling", [("source", job.source.text), ("output", root.text)]⟩

/-- Executes a script's text with `root` as its output directory, and packs the result. -/
def executeIn (job : Job) (d : Disk) (root : Path) (source : String × Option Nat) : JobOutcome :=
  let (w, first) := World.noteReplacement ⟨d, .begin root (some root)⟩ source.2
  let (w, later) := w.run source.1
  let notes := first ++ later
  let s := w.session
  let told := job.beginEvent root :: (events notes ++ openEvents s.files)
  let dir := s.anchors.root.getD root
  let (d, packed, archive) := job.pack w.disk dir
  { disk := d
    events := told ++ packed
    result := match archive with
      | .error e => .error (.package dir e)
      | .ok archive => .ok
        { source := job.source, outputRoot := root, root := s.anchors.root, lines := s.line,
          diagnostics := diagnostics notes, unclosed := s.files.oldestFirst, archive } }

/-- The result of a script that was executed and packed, by what its run has noted and left. -/
theorem built_of_executeIn {job : Job} {d : Disk} {root : Path} {source : String × Option Nat}
    {built : Built} (h : (job.executeIn d root source).result = .ok built) :
    let begun := World.noteReplacement ⟨d, .begin root (some root)⟩ source.2
    let ran := begun.1.run source.1
    ∃ archive, built = ⟨job.source, root, ran.1.session.anchors.root, ran.1.session.line,
      diagnostics (begun.2 ++ ran.2), ran.1.session.files.oldestFirst, archive⟩ := by
  unfold executeIn at h
  simp only at h
  split at h
  · cases h
  · cases h
    exact ⟨_, rfl⟩

/-- Does one job. A script that cannot be read changes nothing. -/
def build (job : Job) (d : Disk) : JobOutcome :=
  match d.read job.source with
  | .error f => ⟨d, [], .error (.readSource job.source f)⟩
  | .ok bytes =>
    match job.prepareRoot d with
    | (d, .error e) => ⟨d, [], .error e⟩
    | (d, .ok root) => job.executeIn d root (decodeSource bytes)

end Job

/-- Does jobs one after another, up to the first that fails. -/
def buildAll : List Job → Disk → Batch
  | [], d => ⟨d, [], [], none⟩
  | job :: jobs, d =>
    match job.build d with
    | ⟨d, events, .error e⟩ => ⟨d, events, [], some e⟩
    | ⟨d, events, .ok built⟩ =>
      let rest := buildAll jobs d
      { rest with events := events ++ rest.events, built := built :: rest.built }

/-- A batch of two stretches of jobs is the first and, if that ends well, the second on
the disk that the first leaves. -/
theorem buildAll_append (a b : List Job) (d : Disk) :
    buildAll (a ++ b) d =
      match buildAll a d with
      | ⟨d', events, built, some e⟩ => ⟨d', events, built, some e⟩
      | ⟨d', events, built, none⟩ =>
        let rest := buildAll b d'
        ⟨rest.disk, events ++ rest.events, built ++ rest.built, rest.error⟩ := by
  induction a generalizing d with
  | nil => simp [buildAll]
  | cons job a ih =>
    simp only [List.cons_append, buildAll]
    cases hb : job.build d with
    | mk d' ev r =>
      cases r with
      | error e => rfl
      | ok built =>
        simp only [ih]
        cases ha : buildAll a d' with
        | mk d'' ev' bs e =>
          cases e <;> simp [List.append_assoc]

end Datapack
