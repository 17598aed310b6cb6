/-
  Datapack.Text.Utf8 — reading UTF-8 that may be damaged.

  The octets are read one at a time. Between characters a first octet either is a
  character, announces one to three further octets, or is refused. An announced octet
  must lie in the range its predecessors allow (the second octet after E0, ED, F0 and
  F4 is restricted, so overlong forms, surrogates and values above U+10FFFF never
  start). An octet that breaks a character off is read again as a first octet: what was
  collected is one ill-formed part, as long as it can be and still start a character.

  `glyphs` gives the characters and, as `none`, the ill-formed parts; `readLossy` puts
  U+FFFD in place of each, `isWellFormed` says that there is none. An octet below 80 is
  always the character of its own (`glyphs_cons_ascii`), whatever came before it
  (`glyphsFrom_ascii`), so damage never swallows a line end, a marker or a quote.
-/

namespace Datapack.Text.Utf8

/-- A character of which `need` further octets are awaited, the next one between `low`
and `high`; `bits` is what the octets so far stand for. -/
structure Pending where
  need : Nat
  low : UInt8
  high : UInt8
  bits : Nat
  deriving DecidableEq, Repr

inductive First where
  | ascii (c : Char)
  | lead (p : Pending)
  | refused
  deriving DecidableEq, Repr

def first (b : UInt8) : First :=
  if b < 0x80 then .ascii (Char.ofNat b.toNat)
  else if b < 0xC2 then .refused
  else if b < 0xE0 then .lead ⟨1, 0x80, 0xBF, b.toNat - 0xC0⟩
  else if b = 0xE0 then .lead ⟨2, 0xA0, 0xBF, 0⟩
  else if b = 0xED then .lead ⟨2, 0x80, 0x9F, 0xD⟩
  else if b < 0xF0 then .lead ⟨2, 0x80, 0xBF, b.toNat - 0xE0⟩
  else if b = 0xF0 then .lead ⟨3, 0x90, 0xBF, 0⟩
  else if b < 0xF4 then .lead ⟨3, 0x80, 0xBF, b.toNat - 0xF0⟩
  else if b = 0xF4 then .lead ⟨3, 0x80, 0x8F, 4⟩
  else .refused

def Pending.push (p : Pending) (b : UInt8) : Nat := p.bits * 64 + (b.toNat - 0x80)

def Pending.takes (p : Pending) (b : UInt8) : Bool := p.low ≤ b && b ≤ p.high

/-- What an octet between characters completes, and what it begins. -/
def start (b : UInt8) : List (Option Char) × Option Pending :=
  match first b with
  | .ascii c => ([some c], none)
  | .lead p => ([], some p)
  | .refused => ([none], none)

def step : Option Pending → UInt8 → List (Option Char) × Option Pending
  | none, b => start b
  | some p, b =>
    if p.takes b then
      if p.need = 1 then ([some (Char.ofNat (p.push b))], none)
      else ([], some ⟨p.need - 1, 0x80, 0xBF, p.push b⟩)
    else (none :: (start b).1, (start b).2)

/-- The characters and ill-formed parts of `bytes`, read with `pending` begun. -/
def glyphsFrom : Option Pending → List UInt8 → List (Option Char)
  | none, [] => []
  | some _, [] => [none]
  | pending, b :: bytes => (step pending b).1 ++ glyphsFrom (step pending b).2 bytes

/-- The characters of `bytes` in order, `none` for each ill-formed part. -/
def glyphs (bytes : List UInt8) : List (Option Char) := glyphsFrom none bytes

def replacement : Char := '\uFFFD'

def readLossy (bytes : List UInt8) : String :=
  String.ofList ((glyphs bytes).map (·.getD replacement))

def isWellFormed (bytes : List UInt8) : Bool := (glyphs bytes).all (·.isSome)

/-- EF BB BF, which some editors put in front of a text. -/
def byteOrderMark : List UInt8 := [0xEF, 0xBB, 0xBF]

def dropMark (bytes : List UInt8) : List UInt8 :=
  if byteOrderMark.isPrefixOf bytes then bytes.drop byteOrderMark.length else bytes

/-! ## ASCII always comes through -/

theorem first_ascii {b : UInt8} (h : b < 0x80) : first b = .ascii (Char.ofNat b.toNat) := by
  simp [first, h]

theorem glyphs_cons_ascii {b : UInt8} (h : b < 0x80) (bytes : List UInt8) :
    glyphs (b :: bytes) = some (Char.ofNat b.toNat) :: glyphs bytes := by
  simp [glyphs, glyphsFrom, step, start, first_ascii h]

/-- A broken-off character does not take the ASCII octet that breaks it off. -/
theorem glyphsFrom_ascii {p : Pending} {b : UInt8} (hp : 0x80 ≤ p.low) (h : b < 0x80)
    (bytes : List UInt8) :
    glyphsFrom (some p) (b :: bytes) = none :: some (Char.ofNat b.toNat) :: glyphs bytes := by
  have ht : p.takes b = false := by
    have : ¬ p.low ≤ b := fun hle => absurd (UInt8.le_trans hp hle) (UInt8.not_le.2 h)
    simp [Pending.takes, this]
  simp [glyphs, glyphsFrom, step, start, ht, first_ascii h]

example : readLossy [0x61, 0xE2, 0x82, 0x0A, 0xFF, 0xE2, 0x82, 0xAC] = "a\uFFFD\n\uFFFD€" := by
  decide +kernel

end Datapack.Text.Utf8
