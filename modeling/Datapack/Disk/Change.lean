import Datapack.Disk.Lookup

/-
  Datapack.Disk.Change — the calls that change a disk.

  Each single call either changes one place and gives the new disk, or fails with a
  fault and changes nothing: `mkdir`, `rmdir`, `unlink`, `ensureFile`, `store`. Making
  a directory together with its missing ancestors (`makeDirs`) is several such calls;
  it can fail after some of them, so it gives the disk in either case.

  None of the calls that make or take away a name follows a link at the end of its
  path. Opening a file for writing does, and creates the target of a dangling link. A
  path that ends in a separator can only mean a directory, and one whose last name is
  `.` or `..`, or that has no name, is never free.
-/

namespace Datapack

namespace FileTree

def put (t : FileTree) (p : Place) (node : Node) : FileTree :=
  match p.getLast? with
  | some name => t.add p.dropLast name node
  | none => t

def drop (t : FileTree) (p : Place) : FileTree :=
  match p.getLast? with
  | some name => t.remove p.dropLast name
  | none => t

end FileTree

namespace Path

/-- Whether the last name can be that of a new node. -/
def endsInOwnName (p : Path) : Bool :=
  match p.names.getLast? with
  | none => false
  | some name => name ≠ "." && name ≠ ".."

/-- The path and the paths above it, nearest first; the empty path is not among them. -/
def ancestors (p : Path) : List Path := upTo (p.text.length + 1) p
where
  /-- The first `n` of them. -/
  upTo : Nat → Path → List Path
    | 0, _ => []
    | n + 1, p =>
      if p.text = "" then []
      else p :: match p.parent? with
        | none => []
        | some above => upTo n above

end Path

namespace Disk

def mkdir (d : Disk) (p : Path) : Except Fault Disk :=
  match d.land .keep p p.names with
  | .error f => .error f
  | .ok (.vacant dir name) => .ok { d with tree := d.tree.add dir name .dir }
  | .ok _ => .error .alreadyExists

def workdirAfter (d : Disk) (place : Place) : Workdir :=
  if d.workdir.base = place then ⟨place.dropLast, d.workdir.removed + 1⟩ else d.workdir

def rmdir (d : Disk) (p : Path) : Except Fault Disk :=
  match d.land .keep p p.names, p.names.getLast? with
  | .error f, _ => .error f
  | .ok _, none => .error .busy
  | .ok _, some "." => .error .invalid
  | .ok _, some ".." => .error .notEmpty
  | .ok (.node place), some _ =>
    if d.tree.isDir place then
      if d.tree.names place = [] then .ok ⟨d.tree.drop place, d.workdirAfter place⟩
      else .error .notEmpty
    else .error .notADirectory
  | .ok _, some _ => .error .notFound

def unlink (d : Disk) (p : Path) : Except Fault Disk :=
  match d.land .keep p p.names with
  | .error f => .error f
  | .ok landing =>
    if p.endsInOwnName then
      match landing with
      | .node place =>
        if d.tree.isDir place then .error .isADirectory
        else if p.endsInSeparator then .error .notADirectory
        else .ok { d with tree := d.tree.drop place }
      | _ => .error .notFound
    else .error .isADirectory

def deleteFile (d : Disk) (p : Path) : Except Fault (Option Disk) :=
  if d.isFile p then (d.unlink p).map some else .ok none

/-- Makes sure that a regular file is at `p`, an empty one if there was nothing, and says
at which place it stands. -/
def ensureFile (d : Disk) (p : Path) : Except Fault (Disk × Place) :=
  if p.endsInOwnName && !p.endsInSeparator then
    match d.land .write p p.names with
    | .error f => .error f
    | .ok (.vacant dir name) =>
      .ok ({ d with tree := d.tree.add dir name (.file .empty) }, dir ++ [name])
    | .ok (.node place) =>
      if d.tree.isDir place then .error .isADirectory else .ok (d, place)
    | .ok .removed => .error .isADirectory
  else match d.land .keep p (p.names.dropLast ++ ["."]) with
    | .error f => .error f
    | .ok _ => .error .isADirectory

def setContent (d : Disk) (place : Place) (bytes : ByteArray) : Disk :=
  { d with tree := d.tree.put place (.file bytes) }

/-- Replaces the content of the file `p`, which is created if it is missing. -/
def store (d : Disk) (p : Path) (bytes : ByteArray) : Except Fault Disk :=
  match d.ensureFile p with
  | .error f => .error f
  | .ok (d, place) => .ok (d.setContent place bytes)

def append (d : Disk) (p : Path) (bytes : ByteArray) : Except Fault Disk :=
  match d.find p with
  | .error f => .error f
  | .ok place => match d.tree.get? place with
    | some (.file old) => .ok (d.setContent place (old ++ bytes))
    | _ => .error .isADirectory

/-- Makes the first path a directory, having made the paths behind it directories as far
as that is needed. A path at which there is a directory already is fine. -/
def makeDirsUp : List Path → Disk → Disk × Except Fault Unit
  | [], d => (d, .ok ())
  | p :: above, d =>
    match d.mkdir p with
    | .ok d => (d, .ok ())
    | .error .notFound =>
      match makeDirsUp above d with
      | (d, .error f) => (d, .error f)
      | (d, .ok ()) => match d.mkdir p with
        | .ok d => (d, .ok ())
        | .error f => (d, if d.isDir p then .ok () else .error f)
    | .error f => (d, if d.isDir p then .ok () else .error f)

/-- Makes the directory `p` and its missing ancestors; the empty path needs nothing. -/
def makeDirs (d : Disk) (p : Path) : Disk × Except Fault Unit := makeDirsUp p.ancestors d

end Disk

end Datapack
