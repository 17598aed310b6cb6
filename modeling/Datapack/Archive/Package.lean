import Datapack.Archive.Zip
import Datapack.Disk.Change

/-
  Datapack.Archive.Package — packing a directory into a zip archive.

  The archive holds one member for every node below the directory, links not entered: a
  directory under its relative name with a separator behind it, a file or link under its
  relative name with the bytes that reading it gives. Members come in the order of the
  file tree, so a directory comes right before its own contents and the same tree always
  gives the same archive. The archive is created before anything is listed; when it lies
  below the directory itself, or a link there leads to it, that member is left out. It is
  told by its canonical path; an archive that has none is not left out.

  A link that leads to a directory or nowhere cannot be read and ends the packing, and so
  does a directory whose path is of no use, as one that is too long; and so does the writer
  of the archive, if it refuses a member or the end. What was archived by then stays in the
  archive.

  Without a name given, the archive stands beside the directory, `.zip` behind its name.
-/

namespace Datapack

/-- Why a directory cannot be packed. The writer of the archive has reasons of the type `ε`. -/
inductive PackFailure (ε : Type) where
  | notADirectory (dir : Path)
  | noArchiveName (dir : Path)
  | createArchive (archive : Path) (f : Fault)
  | walk (dir entry : Path) (f : Fault)
  | readEntry (entry : Path) (f : Fault)
  | zip (name : String) (reason : ε)
  deriving DecidableEq, Repr

/-- Why a directory cannot be packed by a writer that refuses nothing. -/
abbrev PackError := PackFailure Empty

instance instToStringEmpty : ToString Empty := ⟨nofun⟩

namespace PackFailure

variable {ε : Type} [ToString ε]

def causes : PackFailure ε → List String
  | createArchive _ f | readEntry _ f => [f.message]
  | walk _ entry f => [f.messageAt entry.text, f.message]
  | zip _ reason => [toString reason]
  | notADirectory _ | noArchiveName _ => []

def message : PackFailure ε → String
  | notADirectory dir => "not a directory: " ++ dir.text
  | noArchiveName dir => "cannot derive an archive name for " ++ dir.text
  | createArchive archive f => "failed to create archive " ++ archive.text ++ ": " ++ f.message
  | walk dir entry f => "failed to walk " ++ dir.text ++ ": " ++ f.messageAt entry.text
  | readEntry entry f => "failed to read " ++ entry.text ++ ": " ++ f.message
  | zip name reason => "failed to write archive entry " ++ name ++ ": " ++ toString reason

end PackFailure

namespace Archive

def defaultPath (dir : Path) : Except PackError Path :=
  match dir.fileName?, dir.parent? with
  | some name, some above => .ok (above.child (name ++ ".zip"))
  | _, _ => .error (.noArchiveName dir)

def choosePath (asked : Option Path) (dir : Path) : Except PackError Path :=
  match asked with
  | some archive => .ok archive
  | none => defaultPath dir

def directoryName (name : String) : String :=
  match name.toList.getLast? with
  | some '/' | some '\\' => name
  | _ => name ++ "/"

def memberName (rel : Place) : String := "/".intercalate rel

def entryPath (dir : Path) (rel : Place) : Path := dir.child (memberName rel)

section

variable {ε : Type} (d : Disk) (dir : Path) (rel : Place)

def memberOf : Node → Except (PackFailure ε) Member
  | .dir => .ok ⟨directoryName (memberName rel), .empty, false⟩
  | .file _ | .link _ =>
    let entry := entryPath dir rel
    match d.read entry with
    | .ok bytes => .ok ⟨memberName rel, bytes, true⟩
    | .error f => .error (.readEntry entry f)

/-- Why the walk cannot go on below the node at `rel`, if it is a directory. -/
def barrier? : Node → Option (PackFailure ε)
  | .file _ | .link _ => none
  | .dir =>
    let entry := entryPath dir rel
    match d.node .follow entry with
    | .ok _ => none
    | .error f => some (.walk dir entry f)

def storedName : Node → String
  | .dir => directoryName (memberName rel)
  | .file _ | .link _ => memberName rel

end

/-- The path by which an archive is told from other files. -/
def identity (d : Disk) (archive : Path) : Path :=
  match d.canonical archive with
  | .ok path => path
  | .error _ => archive

/-- Whether the node at `rel` below `dir` is the archive with this identity, or a link that
leads to it. -/
def isArchive (d : Disk) (identity dir : Path) (rel : Place) : Bool :=
  match d.canonical (entryPath dir rel) with
  | .ok path => path = identity
  | .error _ => false

/-- What is to be archived: all below `dir` but the archive itself. -/
def candidates (d : Disk) (archive dir : Path) : List (Place × Node) :=
  let identity := identity d archive
  match d.find dir with
  | .ok place => (d.tree.below place).filter fun (rel, _) => !isArchive d identity dir rel
  | .error _ => []

/-- The members for these nodes behind members of the names `taken`, up to the first at which
the packing ends. The writer is asked before the node is read. -/
def collect {ε : Type} (w : Zip.Writer ε) (d : Disk) (dir : Path) (taken : List String) :
    List (Place × Node) → List Member × Option (PackFailure ε)
  | [] => ([], none)
  | (rel, node) :: rest =>
    match w.refusal? taken (storedName rel node) with
    | some reason => ([], some (.zip (memberName rel) reason))
    | none => match memberOf d dir rel node with
      | .error e => ([], some e)
      | .ok m => match barrier? d dir rel node with
        | some e => ([m], some e)
        | none =>
          let (ms, stop) := collect w d dir (taken ++ [m.name]) rest
          (m :: ms, stop)

end Archive

structure Packed where
  archive : Path
  files : Nat
  dirs : Nat
  deriving DecidableEq, Repr

structure Packing (ε : Type) where
  disk : Disk
  /-- The names of the files that were archived, in order. -/
  archived : List String
  result : Except (PackFailure ε) Packed

namespace Archive

section

variable {ε : Type} (w : Zip.Writer ε)

def fill (d : Disk) (archive : Path) (place : Place) (dir : Path) : Packing ε :=
  let (ms, stop) := collect w d dir [] (candidates d archive dir)
  let files := ms.filter (·.deflated)
  ⟨d.setContent place (Zip.encode ms), files.map (·.name),
    match stop with
    | some e => .error e
    | none => match w.unfinished? (ms.map (·.name)) with
      | some reason => .error (.zip archive.text reason)
      | none => .ok ⟨archive, files.length, ms.length - files.length⟩⟩

/-- Packs the directory `dir` into a new archive, in place of any file there was. -/
def packageWith (d : Disk) (dir archive : Path) : Packing ε :=
  if d.isDir dir then
    match match archive.parent? with
      | some above => d.makeDirs above
      | none => (d, .ok ()) with
    | (d, .error f) => ⟨d, [], .error (.createArchive archive f)⟩
    | (d, .ok ()) =>
      match d.ensureFile archive with
      | .error f => ⟨d, [], .error (.createArchive archive f)⟩
      | .ok (d, place) => fill w (d.setContent place .empty) archive place dir
  else ⟨d, [], .error (.notADirectory dir)⟩

end

/-- Packs with the writer of this library. The names below a directory differ and are short,
so that another would not refuse them either. -/
def package : Disk → Path → Path → Packing Empty := packageWith .own

end Archive

end Datapack
