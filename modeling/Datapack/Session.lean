import Datapack.Anchors
import Datapack.OutputStack
import Datapack.Log.Event

/-
  Datapack.Session — the state of one compilation, and what its steps note down.

  A session holds the anchors of path arguments, the namespace, the open output files
  and the number of the line being worked on. The root and the home are paths, not
  holds on directories: when what they name is removed they are stale, and whoever uses
  them looks again.

  A step gives a new state and its notes, in order. A note is a diagnostic, which the
  user gets to see with its line, or an event that is only logged. Every diagnostic is
  also an event (`Note.event`), so the two accounts cannot fall out of step.
-/

namespace Datapack

inductive DiagnosticKind where
  /-- The directive could not run and did nothing. -/
  | skipped
  /-- Part of what was asked for failed. -/
  | suppressed
  /-- The script has something to say. -/
  | log
  deriving DecidableEq, Repr

def DiagnosticKind.word : DiagnosticKind → String
  | skipped => "skipped"
  | suppressed => "suppressed"
  | log => "log"

structure Diagnostic where
  line : Nat
  kind : DiagnosticKind
  message : String
  deriving DecidableEq, Repr

inductive Note where
  | diagnostic (kind : DiagnosticKind) (message : String)
  | event (e : Log.Event)
  deriving DecidableEq, Repr

namespace Note

def diagnostic? (line : Nat) : Note → Option Diagnostic
  | diagnostic kind message => some ⟨line, kind, message⟩
  | event _ => none

def ofKind (line : Nat) (message : String) : DiagnosticKind → Log.Event
  | .skipped => ⟨.debug, .session, message, [("line", toString line)]⟩
  | .suppressed => ⟨.warn, .session, message, [("line", toString line)]⟩
  | .log => ⟨.info, .script, message, [("line", toString line)]⟩

def toEvent (line : Nat) : Note → Log.Event
  | diagnostic kind message => ofKind line message kind
  | event e => e

end Note

structure Session where
  anchors : Anchors
  /-- The namespace of the last datapack that was laid out. -/
  ns : String
  files : OutputStack
  /-- The line being worked on, counted from one; zero before the first. -/
  line : Nat
  deriving DecidableEq, Repr

def Session.begin (cwd : Path) (root : Option Path) : Session := ⟨⟨cwd, root, none⟩, "", [], 0⟩

structure World where
  disk : Disk
  session : Session

abbrev World.Step := World × List Note

namespace World

def lineText (w : World) : String := toString w.session.line

def tell (w : World) (level : Log.Level) (part : Log.Part) (message : String)
    (fields : List (String × String)) : Note :=
  .event ⟨level, part, message, ("line", w.lineText) :: fields⟩

def skip (w : World) (message : String) : Step := (w, [.diagnostic .skipped message])

def moveTo (w : World) (p : Path) : Step :=
  ({ w with session.anchors.cwd := p },
    [w.tell .debug .session "working location changed" [("cwd", p.text)]])

def setRoot (w : World) (p : Path) : Step :=
  ({ w with session.anchors.root := some p },
    [w.tell .debug .session "root set" [("root", p.text)]])

def setHome (w : World) (p : Path) : Step :=
  ({ w with session.anchors.home := some p },
    [w.tell .debug .session "home set" [("home", p.text)]])

/-- What a path argument leads to, within the root. -/
def resolve (w : World) (raw : String) (wanted : Wanted) : Resolution :=
  w.session.anchors.resolve w.disk raw wanted false

end World

end Datapack
