/-
  Datapack.Archive.Checksum — the CRC-32 of zip archives.

  The checksum is the remainder of the octets, read as a polynomial over two elements
  with the lowest bit of an octet first, by the polynomial EDB88320; the register starts
  with all bits set and is inverted at the end.

  Stated here: the register after two stretches of octets is that of the second, begun
  from that of the first (`register_append`).
-/

namespace Datapack.Archive

def shiftBit (r : UInt32) : UInt32 :=
  if r &&& 1 = 1 then (r >>> 1) ^^^ 0xEDB88320 else r >>> 1

def shiftOctet (r : UInt32) (b : UInt8) : UInt32 :=
  Nat.repeat shiftBit 8 (r ^^^ b.toUInt32)

def register (r : UInt32) (bytes : ByteArray) : UInt32 := bytes.data.foldl shiftOctet r

def checksum (bytes : ByteArray) : UInt32 := register 0xFFFFFFFF bytes ^^^ 0xFFFFFFFF

theorem register_append (r : UInt32) (a b : ByteArray) :
    register r (a ++ b) = register (register r a) b := by
  simp [register]

example : checksum "123456789".toUTF8 = 0xCBF43926 := by decide +kernel

end Datapack.Archive
