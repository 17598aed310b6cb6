/-
  Datapack.Log.Event — what the program tells about its own work, and how it is printed.

  An event has a level, the part of the program it comes from, a message and further
  fields. It is printed on one line: the level, the message, then the fields in order.
  Control characters of the message that a terminal could act on are written out.
-/

namespace Datapack.Log

/-- How much an event matters, the weightiest first. -/
inductive Level where
  | error
  | warn
  | info
  | debug
  | trace
  deriving DecidableEq, Repr

namespace Level

def rank : Level → Nat
  | error => 1
  | warn => 2
  | info => 3
  | debug => 4
  | trace => 5

/-- The level in five columns, at the right. -/
def column : Level → String
  | error => "ERROR"
  | warn => " WARN"
  | info => " INFO"
  | debug => "DEBUG"
  | trace => "TRACE"

end Level

inductive Part where
  /-- Scripts themselves, through `log`. -/
  | script
  | interpreter
  | session
  | disk
  | output
  | skeleton
  | archive
  | compiler
  | command
  deriving DecidableEq, Repr

def Part.target : Part → String
  | script => "mcfc::log"
  | interpreter => "mcfc_lib::interpret"
  | session => "mcfc_lib::context"
  | disk => "mcfc_lib::fsops"
  | output => "mcfc_lib::open_files"
  | skeleton => "mcfc_lib::init"
  | archive => "mcfc_lib::package"
  | compiler => "mcfc_lib::compile"
  | command => "mcfc::cmd::build"

structure Event where
  level : Level
  part : Part
  message : String
  /-- Names and printed values. -/
  fields : List (String × String)
  deriving DecidableEq, Repr

def lowerHex (n : Nat) : String := String.ofList (Nat.toDigits 16 n)

/-- A character of a message, written out if a terminal could act on it. -/
def showChar (c : Char) : String :=
  if c = '\x1b' || c = '\x07' || c = '\x08' || c = '\x0c' || c = '\x7f' then
    "\\x" ++ (if c.toNat < 16 then "0" else "") ++ lowerHex c.toNat
  else if 0x80 ≤ c.toNat && c.toNat ≤ 0x9f then "\\u\x7b" ++ lowerHex c.toNat ++ "\x7d"
  else String.singleton c

namespace Event

def line (e : Event) : String :=
  let message := String.join (e.message.toList.map showChar)
  let fields := String.join (e.fields.map fun (name, value) => " " ++ name ++ "=" ++ value)
  e.level.column ++ " " ++ message ++ fields ++ "\n"

example : line ⟨.info, .script, "built\x1b", [("line", "10")]⟩ = " INFO built\\x1b line=10\n" := by
  decide +kernel

end Event

end Datapack.Log
