import Datapack.Text.Json
import Datapack.Disk.Change

/-
  Datapack.Skeleton — the files and directories that every datapack starts with.

  At the top stands `pack.mcmeta` with the pack format and a description. Two function
  tags, `tick.json` and `load.json`, name one function each, and `data/<namespace>` with
  its directory `functions` is where the namespace's own functions go.

  A namespace is a non-empty text over `a`–`z`, `0`–`9`, `_`, `-` and `.`. A pack format
  is an optional `+` and decimal digits whose value fits into 32 bits.

  Laying out is a plan of steps, directories first, that stops at the first step that
  fails; what was done by then stays done (`Progress`). Doing it again writes the three
  files anew and leaves everything else alone.
-/

namespace Datapack

inductive SkeletonError where
  | invalidNamespace (ns : String)
  | invalidPackFormat (text : String)
  | createDir (p : Path) (f : Fault)
  | writeFile (p : Path) (f : Fault)
  deriving DecidableEq, Repr

def SkeletonError.message : SkeletonError → String
  | invalidNamespace ns =>
    "invalid namespace '" ++ ns ++ "': use lowercase letters, digits, '_', '-' or '.'"
  | invalidPackFormat text =>
    "invalid pack format '" ++ text ++ "': expected a non-negative integer"
  | createDir p f => "failed to create directory " ++ p.text ++ ": " ++ f.message
  | writeFile p f => "failed to write file " ++ p.text ++ ": " ++ f.message

structure SkeletonOptions where
  ns : String
  packFormat : UInt32
  description : String
  deriving DecidableEq, Repr

namespace SkeletonOptions

def isNamespaceChar (c : Char) : Bool :=
  c.isLower || c.isDigit || c = '_' || c = '-' || c = '.'

def isNamespace (ns : String) : Bool := ns.toList ≠ [] && ns.toList.all isNamespaceChar

def decimal (digits : List Char) : Nat :=
  digits.foldl (fun v c => v * 10 + (c.toNat - '0'.toNat)) 0

def packFormat? (text : String) : Option UInt32 :=
  let digits := match text.toList with
    | '+' :: digits => digits
    | digits => digits
  if digits ≠ [] && digits.all Char.isDigit then
    if decimal digits < UInt32.size then some (UInt32.ofNat (decimal digits)) else none
  else none

def defaultPackFormat : UInt32 := 4

def defaultDescription : String := "A simple datapack"

/-- Checks the arguments of `init` and fills in what is missing. -/
def ofArguments (ns : String) (packFormat description : Option String) :
    Except SkeletonError SkeletonOptions :=
  let finish (format : UInt32) : SkeletonOptions :=
    ⟨ns, format, description.getD defaultDescription⟩
  if isNamespace ns then
    match packFormat with
    | none => .ok (finish defaultPackFormat)
    | some text => match packFormat? text with
      | some format => .ok (finish format)
      | none => .error (.invalidPackFormat text)
  else .error (.invalidNamespace ns)

end SkeletonOptions

/-! ## The documents -/

def packMeta (packFormat : UInt32) (description : String) : Text.Json :=
  .record [("pack", .record [
    ("pack_format", .nat packFormat.toNat), ("description", .text description)])]

def functionTag (ns function : String) : Text.Json :=
  .record [("values", .list [.text (ns ++ ":" ++ function)])]

/-- A document as it is stored: indented by four spaces, with a line end. -/
def document (value : Text.Json) : String := value.render 4 ++ "\n"

/-! ## The plan -/

structure Skeleton where
  root : Path
  packMeta : Path
  tickTag : Path
  loadTag : Path
  home : Path
  functions : Path
  deriving DecidableEq, Repr

def tagDirectory (root : Path) : Path :=
  ["data", "minecraft", "tags", "functions"].foldl Path.child root

def Skeleton.at (root : Path) (ns : String) : Skeleton :=
  let home := (root.child "data").child ns
  { root
    packMeta := root.child "pack.mcmeta"
    tickTag := (tagDirectory root).child "tick.json"
    loadTag := (tagDirectory root).child "load.json"
    home
    functions := home.child "functions" }

inductive LayoutStep where
  | dir (p : Path)
  | file (p : Path) (text : String)
  deriving DecidableEq, Repr

structure Progress where
  disk : Disk
  done : List LayoutStep
  error : Option SkeletonError

namespace Skeleton

def plan (root : Path) (options : SkeletonOptions) : List LayoutStep :=
  let s := Skeleton.at root options.ns
  [.dir (tagDirectory root),
   .dir s.functions,
   .file s.packMeta (document (Datapack.packMeta options.packFormat options.description)),
   .file s.tickTag (document (functionTag options.ns "tick")),
   .file s.loadTag (document (functionTag options.ns "load"))]

def perform (d : Disk) : LayoutStep → Disk × Option SkeletonError
  | .dir p => match d.makeDirs p with
    | (d, .ok ()) => (d, none)
    | (d, .error f) => (d, some (.createDir p f))
  | .file p text => match d.store p text.toUTF8 with
    | .ok d => (d, none)
    | .error f => (d, some (.writeFile p f))

def performAll : List LayoutStep → Disk → Progress
  | [], d => ⟨d, [], none⟩
  | step :: steps, d =>
    match perform d step with
    | (d, some e) => ⟨d, [], some e⟩
    | (d, none) =>
      let later := performAll steps d
      { later with done := step :: later.done }

@[irreducible] def layOut (root : Path) (options : SkeletonOptions) (d : Disk) : Progress :=
  performAll (plan root options) d

end Skeleton

end Datapack
