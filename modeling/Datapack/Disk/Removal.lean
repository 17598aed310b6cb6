import Datapack.Disk.Change

/-
  Datapack.Disk.Removal — removing a directory with all that is in it.

  The contents go before the directory, files and links before subdirectories, each in
  the order of their names; links are removed and never entered. Nothing stops the
  removal: what cannot be removed or listed is noted, and it goes on. With `self` the
  directory itself goes last; without, it stays, empty.

  A directory is listed when it is come to, and every step looks its path up anew. That
  matters for a path that is itself a link to a directory. It is listed through the
  link; then, with `self`, the link goes first, and what was listed has no path any
  more. On such a walk the first subdirectory, the first one inside it, and so on, are
  each taken only when the list they stand in is done (`late`); the outermost of them
  is taken at all only with `self`.

  `Removal.steps` is the full account in order; counts and failures are read off it.
-/

namespace Datapack

structure Listed where
  path : Path
  isDir : Bool
  deriving DecidableEq, Repr

inductive RemovalStep where
  | file (p : Path)
  | dir (p : Path)
  | failed (p : Path) (reason : String)
  deriving DecidableEq, Repr

structure Removal where
  disk : Disk
  steps : List RemovalStep

namespace Removal

def note (r : Removal) (step : RemovalStep) : Removal := { r with steps := r.steps ++ [step] }

def attempt (r : Removal) (e : Listed) : Removal :=
  match if e.isDir then r.disk.rmdir e.path else r.disk.unlink e.path with
  | .ok d => ⟨d, r.steps ++ [if e.isDir then .dir e.path else .file e.path]⟩
  | .error f => r.note (.failed e.path f.message)

def unreadable (r : Removal) (p : Path) (f : Fault) : Removal :=
  r.note (.failed p (f.messageAt p.text))

def files (r : Removal) : Nat := r.steps.countP fun | .file _ => true | _ => false

def dirs (r : Removal) : Nat := r.steps.countP fun | .dir _ => true | _ => false

/-- What is still there, and why. -/
def failures (r : Removal) : List (Path × String) :=
  r.steps.filterMap fun | .failed p reason => some (p, reason) | _ => none

def failureText (failure : Path × String) : String :=
  "failed to delete " ++ failure.1.text ++ ": " ++ failure.2

/-- What `dir` holds: files and links first, then directories, each by name. -/
def listing (d : Disk) (dir : Path) : Except Fault (List Listed) :=
  match d.list dir with
  | .error f => .error f
  | .ok entries =>
    let listed := entries.map fun (name, node) => (⟨dir.child name, node == .dir⟩ : Listed)
    .ok (listed.filter (!·.isDir) ++ listed.filter (·.isDir))

/-- Comes to one entry of a list, the one that was kept back before it, if any, in hand.
`inner` takes away what a directory holds; without it directories are left alone. -/
def visit (late : Bool) (inner : Option (Bool → Path → Removal → Removal)) :
    Removal × Option Listed → Listed → Removal × Option Listed
  | (r, kept), e =>
    if e.isDir then
      match inner with
      | none => (r, kept)
      | some inner =>
        if late && kept.isNone then (inner true e.path r, some e)
        else ((inner false e.path r).attempt e, kept)
    else (r.attempt e, kept)

/-- Removes what `dir` was found to hold. On a late walk the first subdirectory is kept
back until the others are done, and then taken if `flush` says so. -/
def visitAll (late flush : Bool) (inner : Option (Bool → Path → Removal → Removal)) (dir : Path) :
    Except Fault (List Listed) → Removal → Removal
  | .error f, r => r.unreadable dir f
  | .ok entries, r =>
    match entries.foldl (visit late inner) (r, none) with
    | (r, some e) => if flush then r.attempt e else r
    | (r, none) => r

/-- Removes what `dir` was found to hold, with all that lies in it. Directories deeper
than `fuel` are not entered. -/
def sweep : Nat → (late flush : Bool) → Path → Except Fault (List Listed) → Removal → Removal
  | 0, late, flush, dir, found, r => visitAll late flush none dir found r
  | fuel + 1, late, flush, dir, found, r =>
    visitAll late flush (some fun late p r => sweep fuel late true p (listing r.disk p) r) dir found r

end Removal

/-- Removes all that is in the directory `p`, and with `self` also `p`, which may then be
a file as well. No directory lies deeper than the tree is high, so none is left out. -/
def Disk.removeTree (d : Disk) (p : Path) (self : Bool) : Removal :=
  let r : Removal := ⟨d, []⟩
  match d.node .keep p with
  | .error f => r.unreadable p f
  | .ok .dir =>
    let r := Removal.sweep d.tree.height false true p (Removal.listing d p) r
    if self then r.attempt ⟨p, true⟩ else r
  | .ok (.file _) => if self then r.attempt ⟨p, false⟩ else r
  | .ok (.link _) =>
    match d.node .follow p with
    | .error f => r.unreadable p f
    | .ok .dir =>
      Removal.sweep d.tree.height true self p (Removal.listing d p)
        (if self then r.attempt ⟨p, false⟩ else r)
    | .ok _ => if self then r.attempt ⟨p, false⟩ else r

end Datapack
