import Datapack.Script.Line
import Datapack.Text.Stretches
import Datapack.Skeleton
import Datapack.Disk.Removal
import Datapack.Session

/-
  Datapack.Execution — what the lines of a script do.

  Lines are executed one after another, each completely before the next is looked at.
  Nothing that a line does can stop the run: a directive that cannot run is skipped and
  says so in a diagnostic, a removal that was done only in part reports each failure.

  `execute` runs a directive, `executeLine` a line, `run` a text; each gives the new
  world and the notes it adds. A run is a fold of single lines, its notes marked with
  their lines (`runLines_append`).
-/

namespace Datapack

open Script

namespace World

def invalidPath (name raw : String) (e : InvalidPath) : String :=
  name ++ ": invalid path '" ++ raw ++ "': " ++ e.message

def goRoot (w : World) : Step :=
  match w.session.anchors.root with
  | none => (w, [w.tell .debug .interpreter "root is not set" []])
  | some root =>
    if w.disk.isDir root then w.moveTo root
    else w.skip ("root directory no longer exists: " ++ root.text)

def goHome (w : World) : Step :=
  match w.session.anchors.home with
  | none => w.skip "home is not set"
  | some home =>
    if w.disk.isDir home then w.moveTo home
    else w.skip ("home directory no longer exists: " ++ home.text)

def changeHome (w : World) : Option String → Step
  | none =>
    let cwd := w.session.anchors.cwd
    if w.disk.isDir cwd then w.setHome cwd
    else w.skip ("working location no longer exists: " ++ cwd.text)
  | some raw => match w.resolve raw .dir with
    | .present dir => w.setHome dir
    | .absent dir => w.skip ("sethome: directory not found: " ++ dir.text)
    | .invalid e => w.skip (invalidPath "sethome" raw e)

def created (p : Path) : Note := .event ⟨.debug, .disk, "created directory", [("path", p.text)]⟩

def createdBy (steps : List LayoutStep) : List Note :=
  steps.filterMap fun | .dir p => some (created p) | .file .. => none

def enter (w : World) (s : Skeleton) (ns : String) : Step :=
  let (w, rooted) := w.setRoot s.root
  let w := { w with session.ns := ns }
  let (w, homed) := w.setHome s.home
  let (w, moved) := w.moveTo s.functions
  let told := Note.event ⟨.debug, .skeleton, "datapack initialized",
    [("namespace", ns), ("root", s.root.text)]⟩
  (w, rooted ++ homed ++ moved ++ [told])

/-- Lays out a datapack at the working location and makes it the one worked on; on failure
the session stays as it was. -/
def layOut (w : World) (options : SkeletonOptions) : Step × Except SkeletonError Skeleton :=
  let root := w.session.anchors.cwd
  let progress := Skeleton.layOut root options w.disk
  let w := { w with disk := progress.disk }
  match progress.error with
  | some e => ((w, createdBy progress.done), .error e)
  | none =>
    let s := Skeleton.at root options.ns
    let (w, notes) := w.enter s options.ns
    ((w, createdBy progress.done ++ notes), .ok s)

def initialise (w : World) (ns : String) (packFormat description : Option String) : Step :=
  match SkeletonOptions.ofArguments ns packFormat description with
  | .error e => w.skip ("init: " ++ e.message)
  | .ok options =>
    match w.layOut options with
    | (step, .ok _) => step
    | ((w, notes), .error e) => (w, notes ++ [.diagnostic .skipped ("init: " ++ e.message)])

def changeDir (w : World) (raw : String) : Step :=
  match w.resolve raw .dir with
  | .present dir => w.moveTo dir
  | .absent dir => w.skip ("cd: directory not found: " ++ dir.text)
  | .invalid e => w.skip (invalidPath "cd" raw e)

def makeDir (w : World) (raw : String) : Step :=
  match w.resolve raw .dir with
  | .absent dir =>
    match w.disk.makeDirs dir with
    | (d, .ok ()) => ({ w with disk := d }, [created dir])
    | (d, .error f) =>
      { w with disk := d }.skip ("mkdir: failed to create " ++ dir.text ++ ": " ++ f.message)
  | .present dir => w.skip ("mkdir: directory already exists: " ++ dir.text)
  | .invalid e => w.skip (invalidPath "mkdir" raw e)

def removalNote : RemovalStep → Note
  | .file p | .dir p => .event ⟨.debug, .disk, "removed", [("path", p.text)]⟩
  | .failed p reason =>
    .event ⟨.debug, .disk, "failed to delete, continuing", [("path", p.text), ("error", reason)]⟩

def removalOutcome (w : World) (name : String) (dir : Path) (r : Removal) : Note :=
  if r.failures = [] then
    w.tell .debug .interpreter (name ++ " complete")
      [("path", dir.text), ("files", toString r.files), ("dirs", toString r.dirs)]
  else
    w.tell .debug .interpreter (name ++ " finished with failures")
      [("path", dir.text), ("failures", toString r.failures.length)]

/-- `rmdir`, which removes the directory as well, and `clear`, which empties it. -/
def removeDir (w : World) (name raw : String) (self : Bool) : Step :=
  match w.resolve raw .dir with
  | .absent dir => w.skip (name ++ ": directory not found: " ++ dir.text)
  | .invalid e => w.skip (invalidPath name raw e)
  | .present dir =>
    let r := w.disk.removeTree dir self
    ({ w with disk := r.disk },
      r.steps.map removalNote ++
      r.failures.map (fun failure =>
        .diagnostic .suppressed (name ++ ": " ++ Removal.failureText failure)) ++
      [w.removalOutcome name dir r])

def openFile (w : World) (raw : String) : Step :=
  match w.resolve raw .file with
  | .invalid e => w.skip (invalidPath "open" raw e)
  | .present p | .absent p =>
    match w.session.files.push w.disk p with
    | (d, .ok files) =>
      ({ w with disk := d, session.files := files },
        [w.tell .debug .interpreter "opened" [("path", p.text)]])
    | (d, .error f) =>
      { w with disk := d }.skip ("open: failed to open " ++ p.text ++ ": " ++ f.message)

def closeFile (w : World) : Step :=
  match w.session.files with
  | [] => w.skip "close: no file is open"
  | p :: files =>
    ({ w with session.files := files }, [w.tell .debug .interpreter "closed" [("path", p.text)]])

def deleteFile (w : World) (raw : String) : Step :=
  match w.resolve raw .file with
  | .present p =>
    match w.disk.deleteFile p with
    | .ok (some d) =>
      ({ w with disk := d }, [.event ⟨.debug, .disk, "deleted file", [("path", p.text)]⟩])
    | .ok none => w.skip ("del: file not found: " ++ p.text)
    | .error f => w.skip ("del: failed to delete " ++ p.text ++ ": " ++ f.message)
  | .absent p => w.skip ("del: file not found: " ++ p.text)
  | .invalid e => w.skip (invalidPath "del" raw e)

def perform (w : World) : Directive → Step
  | .root => w.goRoot
  | .home => w.goHome
  | .sethome path => w.changeHome path
  | .init ns packFormat description => w.initialise ns packFormat description
  | .cd path => w.changeDir path
  | .mkdir path => w.makeDir path
  | .rmdir path => w.removeDir "rmdir" path true
  | .clear path => w.removeDir "clear" (path.getD ".") false
  | .open path => w.openFile path
  | .close => w.closeFile
  | .del path => w.deleteFile path
  | .log message => (w, [.diagnostic .log message])

def execute (w : World) (d : Directive) : Step :=
  let done := w.perform d
  (done.1, w.tell .trace .interpreter "dispatch" [("directive", "\"" ++ d.name ++ "\"")] :: done.2)

def writeText (w : World) (text : String) : Step :=
  let dropped := w.tell .trace .interpreter "no open file, content dropped" []
  match w.session.files.write w.disk text with
  | .wrote d => ({ w with disk := d }, [])
  | .noneOpen => (w, [dropped])
  | .gone p =>
    (w, [.event ⟨.debug, .output, "open file no longer exists, dropping content",
      [("path", p.text)]⟩, dropped])
  | .failed p f => w.skip ("failed to write to " ++ p.text ++ ": " ++ f.message)

def executeLine (w : World) (line : String) : Step :=
  match classify line with
  | .blank => (w, [])
  | .directive d => w.execute d
  | .malformed e => w.skip e.message
  | .content text => w.writeText text

/-- Executes lines, numbered from `n + 1` on; each note comes with the number of its line. -/
def runLines (w : World) (n : Nat) : List String → World × List (Nat × Note)
  | [] => (w, [])
  | line :: rest =>
    let (w, notes) := { w with session.line := n + 1 }.executeLine line
    let (w, later) := w.runLines (n + 1) rest
    (w, notes.map (n + 1, ·) ++ later)

def run (w : World) (source : String) : World × List (Nat × Note) :=
  w.runLines 0 (Text.lines source)

/-- A run of two stretches of lines is the run of the first and, in the world it leaves,
the run of the second. -/
theorem runLines_append (w : World) (n : Nat) (a b : List String) :
    w.runLines n (a ++ b) =
      let (w', notes) := w.runLines n a
      let (w'', later) := w'.runLines (n + a.length) b
      (w'', notes ++ later) := by
  induction a generalizing w n with
  | nil => simp [runLines]
  | cons line a ih =>
    simp only [List.cons_append, runLines, ih, List.length_cons, List.append_assoc]
    rw [Nat.add_assoc, Nat.add_comm 1]

end World

def diagnostics (notes : List (Nat × Note)) : List Diagnostic :=
  notes.filterMap fun (line, note) => note.diagnostic? line

def events (notes : List (Nat × Note)) : List Log.Event :=
  notes.map fun (line, note) => note.toEvent line

end Datapack
