import Datapack.Text.Blank
import Datapack.Disk.Change

/-
  Datapack.OutputStack — the output files that are open.

  Text goes to the file opened last; closing goes back to the one before. A stack of
  paths is all there is: a file that is removed while it is open stays on the stack, and
  text for it is dropped until there is a file again.

  Opening makes sure the file exists, its directory included, and keeps what it holds.
  It can fail when some directories have been made already, so it gives the disk in
  either case.
-/

namespace Datapack

/-- The open files, the one opened last in front. -/
abbrev OutputStack := List Path

namespace OutputStack

def current? (files : OutputStack) : Option Path := files.head?

/-- The paths, the one opened first in front. -/
def oldestFirst (files : OutputStack) : List Path := files.reverse

/-- The disk with the directory that `p` stands in, unless that fails. -/
def makeParents (d : Disk) (p : Path) : Disk × Except Fault Unit :=
  match p.parent? with
  | some dir => d.makeDirs dir
  | none => (d, .ok ())

/-- The disk with a regular file at `p`, unless that fails. -/
def provide (d : Disk) (p : Path) : Disk × Except Fault Unit :=
  if d.isFile p then (d, .ok ())
  else
    match makeParents d p with
    | (d, .error f) => (d, .error f)
    | (d, .ok ()) => match d.ensureFile p with
      | .ok (d, _) => (d, .ok ())
      | .error f => (d, .error f)

def push (files : OutputStack) (d : Disk) (p : Path) : Disk × Except Fault OutputStack :=
  match provide d p with
  | (d, .ok ()) => (d, .ok (p :: files))
  | (d, .error f) => (d, .error f)

/-- The line that a text is written as: no blanks at its end, then a line end. -/
def written (text : String) : ByteArray := (Text.trimEnd text ++ "\n").toUTF8

inductive Outcome where
  | wrote (d : Disk)
  /-- No file is open. -/
  | noneOpen
  /-- The file opened last is not there any more. -/
  | gone (p : Path)
  | failed (p : Path) (f : Fault)

def write (files : OutputStack) (d : Disk) (text : String) : Outcome :=
  match files.current? with
  | none => .noneOpen
  | some p =>
    if d.isFile p then
      match d.append p (written text) with
      | .ok d => .wrote d
      | .error f => .failed p f
    else .gone p

end OutputStack

end Datapack
