/-
  Datapack.Text.Json — JSON documents with indentation.

  Only what the program writes: null, whole numbers, texts, lists, and records whose
  fields keep their order. An empty list is `[]`, an empty record a closed pair of
  braces; any other list or record has one element a line, indented by `indent` more
  spaces than the line it closes on. In a text the quote, the backslash, and the
  characters below U+0020 are escaped, the latter by their short form if they have one;
  every other character stands for itself.
-/

namespace Datapack.Text

inductive Json where
  | null
  | nat (n : Nat)
  | text (s : String)
  | list (items : List Json)
  | record (fields : List (String × Json))

namespace Json

def hexDigit (n : Nat) : Char := ("0123456789abcdef".toList)[n % 16]?.getD '0'

def escapeChar (c : Char) : List Char :=
  if c = '"' then ['\\', '"']
  else if c = '\\' then ['\\', '\\']
  else if c = '\x08' then ['\\', 'b']
  else if c = '\t' then ['\\', 't']
  else if c = '\n' then ['\\', 'n']
  else if c = '\x0c' then ['\\', 'f']
  else if c = '\r' then ['\\', 'r']
  else if c.toNat < 0x20 then ['\\', 'u', '0', '0', hexDigit (c.toNat / 16), hexDigit c.toNat]
  else [c]

def quote (s : String) : List Char := '"' :: (s.toList.flatMap escapeChar ++ ['"'])

def newline (spaces : Nat) : List Char := '\n' :: List.replicate spaces ' '

mutual

def write (indent depth : Nat) : Json → List Char
  | .null => "null".toList
  | .nat n => (toString n).toList
  | .text s => quote s
  | .list [] => "[]".toList
  | .list (item :: items) =>
    '[' :: (newline (depth + indent) ++ write indent (depth + indent) item ++
      writeItems indent (depth + indent) items ++ newline depth ++ [']'])
  | .record [] => "\x7b\x7d".toList
  | .record ((name, value) :: fields) =>
    '\x7b' :: (newline (depth + indent) ++ quote name ++ ": ".toList ++
      write indent (depth + indent) value ++ writeFields indent (depth + indent) fields ++
      newline depth ++ ['\x7d'])

/-- The further items of a list, each after a comma and on a line of its own. -/
def writeItems (indent depth : Nat) : List Json → List Char
  | [] => []
  | item :: items =>
    ',' :: (newline depth ++ write indent depth item ++ writeItems indent depth items)

def writeFields (indent depth : Nat) : List (String × Json) → List Char
  | [] => []
  | (name, value) :: fields =>
    ',' :: (newline depth ++ quote name ++ ": ".toList ++ write indent depth value ++
      writeFields indent depth fields)

end

/-- The whole document; no line end at its end. -/
def render (indent : Nat) (value : Json) : String := String.ofList (write indent 0 value)

def ofText? : Option String → Json
  | none => .null
  | some s => .text s

example : render 2 (.record [("a", .list [.nat 1, .null]), ("b", .list [])]) =
    "\x7b\n  \"a\": [\n    1,\n    null\n  ],\n  \"b\": []\n\x7d" := by decide +kernel

end Json

end Datapack.Text
