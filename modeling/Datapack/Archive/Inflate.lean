/-
  Datapack.Archive.Inflate — reading data in the deflate format.

  The data is a row of bits, the lowest bit of an octet first, cut into blocks. A block
  is stored octets, or symbols in a prefix code that is fixed or given in the block by the
  lengths of its words. A symbol is an octet, the end of the block, or a stretch to be
  copied from what was written before.

  Data that ends too early is read as far as it goes (`Ending.cutShort`); what contradicts
  the format is `Ending.corrupt`. Each step takes a bit at least, so the number of bits
  bounds the steps.
-/

namespace Datapack.Archive.Inflate

inductive Ending where
  | complete
  | cutShort
  | corrupt
  deriving DecidableEq, Repr

/-! ## Bits -/

def bit (bytes : ByteArray) (i : Nat) : Except Ending Nat :=
  match bytes[i / 8]? with
  | some b => .ok ((b.toNat >>> (i % 8)) % 2)
  | none => .error .cutShort

/-- The number in `n` bits from position `i`, the lowest bit first. -/
def bits (bytes : ByteArray) : (n i : Nat) → Except Ending Nat
  | 0, _ => .ok 0
  | n + 1, i => do
    let low ← bit bytes i
    let high ← bits bytes n (i + 1)
    return low + 2 * high

/-! ## Prefix codes -/

/-- A prefix code in which words of one length are consecutive numbers, in the order of
their symbols, and shorter words come before longer ones. -/
structure Code where
  /-- How many words there are of each length from 1 on. -/
  counts : List Nat
  /-- The symbols in the order of their words. -/
  symbols : Array Nat

namespace Code

def maxLength : Nat := 15

/-- The code in which each symbol has a word of the length given; none if that is 0. -/
def ofLengths (lengths : List Nat) : Code :=
  let ofLength (n : Nat) := lengths.zipIdx.filterMap fun (l, s) => if l = n then some s else none
  let words := (List.range maxLength).map fun n => ofLength (n + 1)
  ⟨words.map List.length, words.flatten.toArray⟩

/-- How much of the room for words is taken, in words of the greatest length. -/
def taken (c : Code) : Nat :=
  c.counts.zipIdx.foldl (fun room (n, i) => room + n * Nat.pow 2 (maxLength - 1 - i)) 0

/-- Whether the words fill the room exactly, or there are none. -/
def isComplete (c : Code) : Bool := c.symbols.isEmpty || c.taken = Nat.pow 2 maxLength

def isSingle (c : Code) : Bool := c.symbols.size = 1 && c.counts.head? = some 1

/-- Reads a word from position `i` and gives its symbol and the position behind. Of the
word `word` was read, and words of its length begin at `first`; `index` symbols have
shorter words. -/
def readFrom (c : Code) (bytes : ByteArray) :
    (counts : List Nat) → (word first index i : Nat) → Except Ending (Nat × Nat)
  | [], _, _, _, _ => .error .corrupt
  | n :: counts, word, first, index, i => do
    let word := 2 * word + (← bit bytes i)
    let first := 2 * first
    if word < first + n then
      return (c.symbols[index + (word - first)]?.getD 0, i + 1)
    else if c.symbols.size ≤ index + n then throw .corrupt
    else c.readFrom bytes counts word (first + n) (index + n) (i + 1)

def read (c : Code) (bytes : ByteArray) (i : Nat) : Except Ending (Nat × Nat) :=
  c.readFrom bytes c.counts 0 0 0 i

end Code

/-! ## Symbols -/

structure Progress where
  pos : Nat
  out : ByteArray

/-- The least length that each symbol for a stretch stands for, and how many bits more
give the rest. -/
def lengths : Array (Nat × Nat) :=
  #[(3, 0), (4, 0), (5, 0), (6, 0), (7, 0), (8, 0), (9, 0), (10, 0), (11, 1), (13, 1), (15, 1),
    (17, 1), (19, 2), (23, 2), (27, 2), (31, 2), (35, 3), (43, 3), (51, 3), (59, 3), (67, 4),
    (83, 4), (99, 4), (115, 4), (131, 5), (163, 5), (195, 5), (227, 5), (258, 0)]

/-- The least distance that each symbol stands for, and how many bits more give the rest. -/
def distances : Array (Nat × Nat) :=
  #[(1, 0), (2, 0), (3, 0), (4, 0), (5, 1), (7, 1), (9, 2), (13, 2), (17, 3), (25, 3), (33, 4),
    (49, 4), (65, 5), (97, 5), (129, 6), (193, 6), (257, 7), (385, 7), (513, 8), (769, 8),
    (1025, 9), (1537, 9), (2049, 10), (3073, 10), (4097, 11), (6145, 11), (8193, 12), (12289, 12),
    (16385, 13), (24577, 13)]

def readExtra (bytes : ByteArray) (table : Array (Nat × Nat)) (symbol i : Nat) :
    Except Ending (Nat × Nat) :=
  match table[symbol]? with
  | none => .error .corrupt
  | some (base, extra) => do return (base + (← bits bytes extra i), i + extra)

/-- Writes `length` octets more, each the one that was written `distance` octets ago. -/
def copy (distance : Nat) : (length : Nat) → ByteArray → ByteArray
  | 0, out => out
  | length + 1, out => copy distance length (out.push (out[out.size - distance]?.getD 0))

/-- Reads the rest of a stretch, of which the symbol for the length was read: gives its
length, its distance and the position behind. -/
def readStretch (bytes : ByteArray) (code : Code) (symbol i : Nat) :
    Except Ending (Nat × Nat × Nat) := do
  let (length, i) ← readExtra bytes lengths symbol i
  let (symbol, i) ← code.read bytes i
  let (distance, i) ← readExtra bytes distances symbol i
  return (length, distance, i)

def endOfBlock : Nat := 256

/-- Reads symbols to the end of their block, `steps` of them being enough. -/
def readSymbols (bytes : ByteArray) (literals distances : Code) :
    (steps : Nat) → Progress → Progress × Ending
  | 0, p => (p, .cutShort)
  | steps + 1, p =>
    match literals.read bytes p.pos with
    | .error e => (p, e)
    | .ok (symbol, i) =>
      if symbol < endOfBlock then
        readSymbols bytes literals distances steps ⟨i, p.out.push (UInt8.ofNat symbol)⟩
      else if symbol = endOfBlock then ({ p with pos := i }, .complete)
      else match readStretch bytes distances (symbol - endOfBlock - 1) i with
        | .error e => (p, e)
        | .ok (length, distance, i) =>
          if p.out.size < distance then (p, .corrupt)
          else readSymbols bytes literals distances steps ⟨i, copy distance length p.out⟩

/-! ## Blocks -/

def fixedLengths : List Nat :=
  List.replicate 144 8 ++ List.replicate 112 9 ++ List.replicate 24 7 ++ List.replicate 8 8

def lengthOrder : List Nat := [16, 17, 18, 0, 8, 7, 9, 6, 10, 5, 11, 4, 12, 3, 13, 2, 14, 1, 15]

def readThrees (bytes : ByteArray) : (n i : Nat) → Except Ending (List Nat)
  | 0, _ => .ok []
  | n + 1, i => do return (← bits bytes 3 i) :: (← readThrees bytes n (i + 3))

/-- Reads `wanted` lengths in all, `steps` symbols being enough; those in `read` were read
before, the last one first. Three symbols stand for repeated lengths. -/
def readLengths (bytes : ByteArray) (code : Code) (wanted : Nat) :
    (steps : Nat) → (read : List Nat) → (i : Nat) → Except Ending (List Nat × Nat)
  | 0, read, i => .ok (read.reverse, i)
  | steps + 1, read, i => do
    if wanted ≤ read.length then return (read.reverse, i)
    let (symbol, i) ← code.read bytes i
    let again (length least extra : Nat) : Except Ending (List Nat × Nat) := do
      let n := least + (← bits bytes extra i)
      if wanted < read.length + n then throw .corrupt
      return (List.replicate n length ++ read, i + extra)
    let (read, i) ← match symbol with
      | 16 => match read with
        | [] => throw .corrupt
        | length :: _ => again length 3 2
      | 17 => again 0 3 3
      | 18 => again 0 11 7
      | length => pure (length :: read, i)
    readLengths bytes code wanted steps read i

def readCodes (bytes : ByteArray) (i : Nat) : Except Ending (Code × Code × Nat) := do
  let literals := (← bits bytes 5 i) + 257
  let distances := (← bits bytes 5 (i + 5)) + 1
  let given := (← bits bytes 4 (i + 10)) + 4
  if 286 < literals || 30 < distances then throw .corrupt
  let threes ← readThrees bytes given (i + 14)
  let code := Code.ofLengths ((List.range 19).map fun symbol =>
    ((lengthOrder.zip threes).lookup symbol).getD 0)
  if !code.isComplete then throw .corrupt
  let wanted := literals + distances
  let (lengths, i) ← readLengths bytes code wanted wanted [] (i + 14 + 3 * given)
  let first := Code.ofLengths (lengths.take literals)
  let second := Code.ofLengths (lengths.drop literals)
  if lengths[endOfBlock]? = some 0 then throw .corrupt
  if !(first.isComplete || first.isSingle) then throw .corrupt
  if !(second.isComplete || second.isSingle) then throw .corrupt
  return (first, second, i)

def readStored (bytes : ByteArray) (p : Progress) : Progress × Ending :=
  let i := (p.pos + 7) / 8
  match bits bytes 16 (8 * i), bits bytes 16 (8 * i + 16) with
  | .ok size, .ok check =>
    if size + check ≠ 65535 then (p, .corrupt)
    else
      let stop := i + 4 + size
      (⟨8 * stop, p.out ++ bytes.extract (i + 4) stop⟩,
        if bytes.size < stop then .cutShort else .complete)
  | _, _ => (p, .cutShort)

def readBlock (bytes : ByteArray) (p : Progress) : Progress × Ending :=
  let steps := 8 * bytes.size + 1
  let inside : Progress := { p with pos := p.pos + 2 }
  match bits bytes 2 p.pos with
  | .error e => (p, e)
  | .ok 0 => readStored bytes inside
  | .ok 1 =>
    readSymbols bytes (.ofLengths fixedLengths) (.ofLengths (List.replicate 30 5)) steps inside
  | .ok 2 => match readCodes bytes inside.pos with
    | .error e => (p, e)
    | .ok (literals, distances, i) =>
      readSymbols bytes literals distances steps { inside with pos := i }
  | .ok _ => (p, .corrupt)

def readBlocks (bytes : ByteArray) : (steps : Nat) → Progress → Progress × Ending
  | 0, p => (p, .cutShort)
  | steps + 1, p =>
    match bit bytes p.pos with
    | .error e => (p, e)
    | .ok last => match readBlock bytes { p with pos := p.pos + 1 } with
      | (p, .complete) => if last = 1 then (p, .complete) else readBlocks bytes steps p
      | stopped => stopped

end Inflate

/-- What data in the deflate format stands for, as far as the data goes; none if it is not
in that format. -/
def inflate? (bytes : ByteArray) : Option ByteArray :=
  match Inflate.readBlocks bytes (8 * bytes.size + 1) ⟨0, .empty⟩ with
  | (_, .corrupt) => none
  | (p, _) => some p.out

end Datapack.Archive
