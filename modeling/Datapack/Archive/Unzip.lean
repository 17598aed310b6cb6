import Datapack.Archive.Zip
import Datapack.Archive.Inflate
import Datapack.Text.CodePage
import Datapack.Text.Utf8

/-
  Datapack.Archive.Unzip — reading zip archives.

  An archive is read from its end. The last end record that fits, behind which a comment
  and anything else may stand, says where the directory begins. If no line of it stands
  there, but one further on, something was put in front of the archive, and all places
  count from there. An end record whose directory cannot be read is no end record, and
  the one before it is tried.

  Each line of the directory names a member and says where it stands, how long its data
  is and how it is compressed. Of two lines with one name the later counts, in the place
  of the earlier. A member can be read if its data is not encrypted, is stored or
  deflated, and has the checksum that the line gives.
-/

namespace Datapack.Archive.Zip

/-! ## Numbers -/

/-- The octet at `i`, zero behind the end. -/
def octet (bytes : ByteArray) (i : Nat) : Nat := (bytes[i]?.getD 0).toNat

def readTwo (bytes : ByteArray) (i : Nat) : Nat := octet bytes i + 256 * octet bytes (i + 1)

def readFour (bytes : ByteArray) (i : Nat) : Nat := readTwo bytes i + 65536 * readTwo bytes (i + 2)

/-! ## The directory -/

structure Line where
  name : String
  encrypted : Bool
  method : Nat
  checksum : Nat
  size : Nat
  /-- Where the local header stands. -/
  start : Nat

def lineSize : Nat := 46

/-- Reads the line at `i` and gives the place behind it; places are `shift` further on
than lines say. -/
def readLine (bytes : ByteArray) (shift i : Nat) : Option (Line × Nat) :=
  let nameStop := i + lineSize + readTwo bytes (i + 28)
  let stop := nameStop + readTwo bytes (i + 30) + readTwo bytes (i + 32)
  if readFour bytes i ≠ 0x02014b50 || bytes.size < stop then none
  else
    let flags := readTwo bytes (i + 8)
    let name := (bytes.extract (i + lineSize) nameStop).data.toList
    let name := if flags / 0x800 % 2 = 1 then Text.Utf8.readLossy name else Text.CodePage.read name
    some (⟨name, flags % 2 = 1, readTwo bytes (i + 10), readFour bytes (i + 16),
      readFour bytes (i + 20), readFour bytes (i + 42) + shift⟩, stop)

def readLines (bytes : ByteArray) (shift : Nat) : (n i : Nat) → Option (List Line)
  | 0, _ => some []
  | n + 1, i => do
    let (line, i) ← readLine bytes shift i
    let lines ← readLines bytes shift n i
    return line :: lines

/-- The first of `n` places from `i` on at which a line of a directory may stand. -/
def findLine (bytes : ByteArray) : (n i : Nat) → Option Nat
  | 0, _ => none
  | n + 1, i => if readFour bytes i = 0x02014b50 then some i else findLine bytes n (i + 1)

def readDirectory (bytes : ByteArray) (i : Nat) : Option (List Line) :=
  let stated := readFour bytes (i + 16)
  if readFour bytes i ≠ 0x06054b50 || bytes.size < i + 22 + readTwo bytes (i + 20) ||
    readTwo bytes (i + 4) ≠ readTwo bytes (i + 6) then none
  else if readTwo bytes (i + 10) = 0 then
    readLines bytes (i - stated) (readTwo bytes (i + 8)) (max i stated)
  else do
    let found ← findLine bytes (i - stated) stated
    readLines bytes (found - stated) (readTwo bytes (i + 8)) found

def findDirectory (bytes : ByteArray) : (i : Nat) → Option (List Line)
  | 0 => none
  | i + 1 => match readDirectory bytes i with
    | some lines => some lines
    | none => findDirectory bytes i

/-- The lines with one more, which takes the place of one of the same name. -/
def noteLine (lines : List Line) (line : Line) : List Line :=
  if lines.any (·.name = line.name) then
    lines.map fun old => if old.name = line.name then line else old
  else lines ++ [line]

def directory? (bytes : ByteArray) : Option (List Line) :=
  (findDirectory bytes bytes.size).map fun lines => lines.foldl noteLine []

/-! ## Members -/

def rawData (bytes : ByteArray) (line : Line) : Option ByteArray :=
  let i := line.start
  if readFour bytes i ≠ 0x04034b50 || bytes.size < i + 30 then none
  else
    let start := i + 30 + readTwo bytes (i + 26) + readTwo bytes (i + 28)
    some (bytes.extract start (start + line.size))

def readMember (bytes : ByteArray) (line : Line) : Option Member := do
  let raw ← rawData bytes line
  let data ← match line.encrypted, line.method with
    | false, 0 => some raw
    | false, 8 => inflate? raw
    | _, _ => none
  if (checksum data).toNat ≠ line.checksum then none
  return ⟨line.name, data, line.method = 8⟩

def decode? (bytes : ByteArray) : Option (List Member) :=
  (directory? bytes).bind fun lines => lines.mapM (readMember bytes)

example : decode? (encode [⟨"d/", .empty, false⟩, ⟨"d/f", "x\n".toUTF8, true⟩]) =
    some [⟨"d/", .empty, false⟩, ⟨"d/f", "x\n".toUTF8, true⟩] := by decide +kernel

end Datapack.Archive.Zip
