import Datapack.Archive.Checksum

/-
  Datapack.Archive.Zip — writing zip archives.

  An archive is a row of members, each a local header, the name and the data, then a
  directory of all members, then the end record. A member that is a directory has a name
  ending in a separator and no data. File data is in the deflate format, written as
  stored blocks of at most 65535 octets, the last of them marked as final; a reader of
  deflate data accepts them as it accepts any. Times are the start of 1980, so the same
  members always make the same octets.

  What a writer refuses is up to it (`Writer`). No more is relied on than that it takes new
  names that are short enough, and ends what it has begun (`Writer.Reliable`).
-/

namespace Datapack.Archive

/-- Data is compared as an array. -/
local instance decidableEqData : DecidableEq ByteArray := ByteArray.instDecidableEq

structure Member where
  name : String
  data : ByteArray
  /-- Whether the data is in the deflate format. -/
  deflated : Bool
  deriving DecidableEq

namespace Zip

/-! ## Octets of numbers -/

/-- Two octets, the lower first. -/
def two (n : Nat) : ByteArray := ⟨#[UInt8.ofNat n, UInt8.ofNat (n / 256)]⟩

def four (n : Nat) : ByteArray := two n ++ two (n / 65536)

/-! ## Stored blocks -/

def maxBlock : Nat := 65535

def block (final : Bool) (data : ByteArray) : ByteArray :=
  ⟨#[if final then 1 else 0]⟩ ++ two data.size ++ two (65535 - data.size) ++ data

/-- Data as stored blocks, `blocks` of them being enough. -/
def storeBlocks : (blocks : Nat) → ByteArray → ByteArray
  | 0, data => block true data
  | blocks + 1, data =>
    if data.size ≤ maxBlock then block true data
    else block false (data.extract 0 maxBlock) ++
      storeBlocks blocks (data.extract maxBlock data.size)

def deflate (data : ByteArray) : ByteArray := storeBlocks (data.size / maxBlock) data

/-! ## Writing -/

/-- The start of 1980 as a date. -/
def firstDay : Nat := 0x21

/-- The part that the local header and the directory share: version, flags, method, time,
checksum, sizes, length of the name. -/
def description (m : Member) (stored : ByteArray) : ByteArray :=
  let flags := if m.name.utf8ByteSize = m.name.length then 0 else 0x800
  two 20 ++ two flags ++ two (if m.deflated then 8 else 0) ++ two 0 ++ two firstDay ++
    four (checksum m.data).toNat ++ four stored.size ++ four m.data.size ++
    two m.name.utf8ByteSize ++ two 0

def stored (m : Member) : ByteArray := if m.deflated then deflate m.data else m.data

def encodeMember (m : Member) : ByteArray :=
  four 0x04034b50 ++ description m (stored m) ++ m.name.toUTF8 ++ stored m

def encodeLine (m : Member) (offset : Nat) : ByteArray :=
  let mode := if m.deflated then 0o100644 else 0o40755
  four 0x02014b50 ++ two (3 * 256 + 20) ++ description m (stored m) ++ two 0 ++ two 0 ++ two 0 ++
    four (mode * 65536) ++ four offset ++ m.name.toUTF8

def encodeFrom : List Member → (members directory : ByteArray) → ByteArray × ByteArray
  | [], members, directory => (members, directory)
  | m :: ms, members, directory =>
    encodeFrom ms (members ++ encodeMember m) (directory ++ encodeLine m members.size)

def encode (ms : List Member) : ByteArray :=
  let (members, directory) := encodeFrom ms .empty .empty
  members ++ directory ++ four 0x06054b50 ++ two 0 ++ two 0 ++ two ms.length ++ two ms.length ++
    four directory.size ++ four members.size ++ two 0

/-! ## Writers that refuse -/

/-- A writer of archives, by what it refuses. Its reasons are of the type `ε`. -/
structure Writer (ε : Type) where
  /-- Why no member of this name can be begun where there are members of the names `taken`. -/
  refusal? : (taken : List String) → (name : String) → Option ε
  /-- Why an archive with members of these names cannot be ended. -/
  unfinished? : (taken : List String) → Option ε

namespace Writer

variable {ε : Type}

/-- The longest name in octets; the length of a name has two of them. -/
def maxName : Nat := 65535

/-- What there is no reason to refuse is taken: a name that is new and not too long, and the
end of any archive. -/
structure Reliable (w : Writer ε) : Prop where
  takes : ∀ taken name, name ∉ taken → name.utf8ByteSize ≤ maxName → w.refusal? taken name = none
  ends : ∀ taken, w.unfinished? taken = none

/-- `encode` writes whatever it is given. -/
def own : Writer Empty := ⟨fun _ _ => none, fun _ => none⟩

inductive Refusal where
  | nameTaken
  | nameTooLong
  deriving DecidableEq, Repr

/-- A writer that takes nothing that the format has no room for. -/
def strict : Writer Refusal where
  refusal? taken name :=
    if taken.contains name then some .nameTaken
    else if maxName < name.utf8ByteSize then some .nameTooLong
    else none
  unfinished? _ := none

theorem own_reliable : own.Reliable := ⟨fun _ _ _ _ => rfl, fun _ => rfl⟩

theorem strict_reliable : strict.Reliable := by
  refine ⟨fun taken name hnew hsize => ?_, fun _ => rfl⟩
  show (if taken.contains name then _ else _) = _
  rw [if_neg (by simpa using hnew), if_neg (Nat.not_lt.2 hsize)]

end Writer

end Zip

end Datapack.Archive
