import Datapack.CommandLine.Program
import Datapack.Disk.Difference

/-
  Datapack.Main — the program on a real disk.

  The part of the disk that a run can reach is read into a file tree: the paths that the
  arguments name, all that lies below them, and what links among these lead to. The run
  itself is a function of that tree; afterwards the changes are made on the disk.

  A link whose target is not there is read as one into a directory that is not there.
-/

namespace Datapack.Main

def located (p : Place) := System.mkFilePath [(Path.ofPlace p).text]

def nowhere : Path := ⟨"/\x01/\x01"⟩

/-- What stands at a place; none for what is neither directory, file nor link. -/
def look (p : Place) : IO (Option Node) := do
  try
    match (← (located p).symlinkMetadata).type with
    | .dir => return some .dir
    | .file => return some (.file (← IO.FS.readBinFile (located p)))
    | .symlink =>
      try return some (.link ⟨(← IO.FS.realPath (located p)).toString⟩)
      catch _ => return some (.link nowhere)
    | .other => return none
  catch _ => return none

mutual

partial def visit (t : FileTree) (cur : Place) : List String → IO FileTree
  | [] => fill t cur
  | "." :: rest => visit t cur rest
  | ".." :: rest => visit t cur.dropLast rest
  | name :: rest => do
    let p := cur ++ [name]
    match ← look p with
    | none => return t
    | some (.link target) =>
      if target = nowhere then return t.put p (.link target)
      else visit (t.put p (.link target)) [] (target.names ++ rest)
    | some node => visit (if t.isDir p then t else t.put p node) p rest

partial def fill (t : FileTree) (dir : Place) : IO FileTree := do
  if !t.isDir dir then return t
  let mut t := t
  for entry in ← (located dir).readDir do
    let p := dir ++ [entry.fileName]
    if (t.get? p).isNone || t.isDir p then
      match ← look p with
      | none => pure ()
      | some .dir => t ← fill (if t.isDir p then t else t.put p .dir) p
      | some (.link target) =>
        t := t.put p (.link target)
        if target ≠ nowhere then t ← visit t [] target.names
      | some node => t := t.put p node
  return t

end

def read (d : Disk) (p : Path) : IO Disk := do
  let start := if p.isAbsolute then [] else d.workdir.base
  return { d with tree := ← visit d.tree [] (start ++ p.names) }

def named : CommandLine.Command → List Path
  | .build files output _ archive =>
    files ++ files.map (fun file => Job.requestedRoot ⟨file, output, false, none⟩) ++
      archive.toList
  | .pack dir output => dir :: output.toList

/-- The archive that a directory gets by default, by its canonical path. -/
def defaultArchive? (d : Disk) (dir : Path) : Option Path :=
  match d.canonical dir with
  | .ok dir => (Archive.defaultPath dir).toOption
  | .error _ => none

/-- The part of the disk that a run can reach. -/
def snapshot (args : List String) : IO Disk := do
  let here : Path := ⟨(← IO.FS.realPath (← IO.currentDir)).toString⟩
  let tree := (here.names.foldl (fun (t, p) name => (t.add p name .dir, p ++ [name]))
    (FileTree.empty, ([] : Place))).1
  let bare : Disk := ⟨tree, ⟨here.names, 0⟩⟩
  match CommandLine.parse args with
  | .error _ => return bare
  | .ok i =>
    let paths := named i.command
    let d ← paths.foldlM read bare
    (paths.filterMap (defaultArchive? d)).foldlM read d

def apply : Edit → IO Unit
  | .remove p true => IO.FS.removeDir (located p)
  | .remove p false => IO.FS.removeFile (located p)
  | .add p .dir => IO.FS.createDir (located p)
  | .add p (.file bytes) => IO.FS.writeBinFile (located p) bytes
  | .add _ (.link _) => pure ()

end Datapack.Main

open Datapack in
def main (args : List String) : IO UInt32 := do
  let environment ← IO.getEnv "RUST_LOG"
  let begun ← IO.monoMsNow
  let before ← Main.snapshot args
  let (after, _) := CommandLine.run args environment "" before
  (before.tree.edits after.tree).forM Main.apply
  let elapsed := CommandLine.duration ((← IO.monoMsNow) - begun)
  let (_, output) := CommandLine.run args environment elapsed before
  IO.print output.out
  IO.eprint output.err
  return UInt32.ofNat output.exit
