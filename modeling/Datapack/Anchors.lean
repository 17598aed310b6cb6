import Datapack.Text.Blank
import Datapack.Disk.Lookup

/-
  Datapack.Anchors — where a path argument of a directive leads.

  An argument is trimmed, its backslashes become separators, and its characters are
  checked: it may not be empty, hold a reserved character, or hold a colon other than
  that of a drive at its start. Then it is anchored: `~` at the home directory, a
  separator at the datapack root, anything else at the working location. The result is
  folded without looking at the disk, so it has no `.` and no `..` whatever the anchor
  had. Unless the caller allows it, it must not lead out of the folded root: a directory
  may be the root itself, a file has to lie below it.

  Only then is the disk asked whether there is something of the wanted kind.
-/

namespace Datapack

inductive InvalidPath where
  | empty
  | reservedChar (c : Char)
  | qualifier
  | homeUnset
  | homeMissing (p : Path)
  | rootUnset
  | rootMissing (p : Path)
  | outsideRoot (p : Path)
  deriving DecidableEq, Repr

def InvalidPath.message : InvalidPath → String
  | empty => "path is empty"
  | reservedChar c => "reserved character '" ++ String.singleton c ++ "' in path"
  | qualifier => "misplaced drive qualifier ':' in path"
  | homeUnset => "home is not set"
  | homeMissing p => "home directory no longer exists: " ++ p.text
  | rootUnset => "root is not set"
  | rootMissing p => "root directory no longer exists: " ++ p.text
  | outsideRoot p => p.text ++ " is outside the datapack root"

inductive Resolution where
  | invalid (e : InvalidPath)
  /-- A path at which nothing of the wanted kind is. -/
  | absent (p : Path)
  | present (p : Path)
  deriving DecidableEq, Repr

inductive Wanted where
  | dir
  | file
  deriving DecidableEq, Repr

structure Anchors where
  cwd : Path
  root : Option Path
  home : Option Path
  deriving DecidableEq, Repr

def reservedChars : List Char := ['*', '"', '<', '>', '|', '?']

/-- Whether the text starts with a drive: an ASCII letter, a colon and a separator. -/
def startsWithDrive : List Char → Bool
  | c :: ':' :: '/' :: _ => c.isAlpha
  | _ => false

/-- Refuses empty arguments, reserved characters and colons that belong to no drive. -/
def checkCharacters (arg : List Char) : Except InvalidPath Unit :=
  if arg = [] then .error .empty
  else match arg.find? (reservedChars.contains ·) with
    | some c => .error (.reservedChar c)
    | none =>
      if (if startsWithDrive arg then 1 else 0) < arg.count ':' then .error .qualifier
      else .ok ()

/-- An argument without the blanks around it, and with one kind of separator. -/
def argumentText (raw : String) : List Char :=
  (Text.trim raw).toList.map fun c => if c = '\\' then '/' else c

namespace Anchors

def existing (d : Disk) (anchor : Option Path) (unset : InvalidPath)
    (missing : Path → InvalidPath) : Except InvalidPath Path :=
  match anchor with
  | none => .error unset
  | some p => if d.isDir p then .ok p else .error (missing p)

def anchored (a : Anchors) (d : Disk) (arg : List Char) : Except InvalidPath Path :=
  let tail (cs : List Char) : Path := ⟨String.ofList (cs.dropWhile (· = '/'))⟩
  match arg with
  | '~' :: rest => (existing d a.home .homeUnset .homeMissing).map (·.join (tail rest))
  | '/' :: rest => (existing d a.root .rootUnset .rootMissing).map (·.join (tail rest))
  | _ => .ok (a.cwd.join ⟨String.ofList arg⟩)

def checkBoundary (a : Anchors) (wanted : Wanted) (p : Path) : Except InvalidPath Unit :=
  match a.root with
  | none => .error .rootUnset
  | some root =>
    let dir := match wanted with
      | .dir => p
      | .file => p.parent?.getD p
    if dir.isUnder root.normalize then .ok () else .error (.outsideRoot p)

def locate (a : Anchors) (d : Disk) (raw : String) (wanted : Wanted) (outside : Bool) :
    Except InvalidPath Path := do
  let arg := argumentText raw
  checkCharacters arg
  let joined ← a.anchored d arg
  let p := joined.normalize
  if outside then return p
  a.checkBoundary wanted p
  return p

/-- What an argument leads to; `outside` allows paths that leave the root. -/
def resolve (a : Anchors) (d : Disk) (raw : String) (wanted : Wanted) (outside : Bool) :
    Resolution :=
  match a.locate d raw wanted outside with
  | .error e => .invalid e
  | .ok p =>
    let found := match wanted with
      | .dir => d.isDir p
      | .file => d.isFile p
    if found then .present p else .absent p

end Anchors

end Datapack
