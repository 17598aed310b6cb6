import Datapack.Build
import Datapack.Text.Json
import Datapack.CommandLine.Arguments

/-
  Datapack.CommandLine.Report — what the program says about what it did.

  A report is text, a few lines for each script and one at the end, or one JSON document
  with everything in it. If there is no such document, that is the error, and nothing else
  is reported. Errors and warnings go to the other stream; an error is told with the errors
  behind it.
-/

namespace Datapack.CommandLine

def line (s : String) : String := s ++ "\n"

def stat (label value : String) : String := line ("  " ++ label ++ ": " ++ value)

def mapping (source dest : Path) : String := source.text ++ " → " ++ dest.text

def errorLine (chain : List String) : String := line ("✗ " ++ ": ".intercalate chain)

/-- What makes the text of a JSON document, or tells why it does not. One that is given a path
which is no Unicode text has to refuse; the texts here are all Unicode. -/
abbrev Serializer := Text.Json → Except String String

namespace Serializer

/-- Indented by two spaces, as a report is to be. -/
def Writes (s : Serializer) (value : Text.Json) : Prop := s value = .ok (value.render 2)

def plain : Serializer := fun value => .ok (value.render 2)

theorem plain_writes (value : Text.Json) : plain.Writes value := rfl

end Serializer

namespace Report

def skipped (b : Built) : Nat := b.diagnostics.countP (·.kind = .skipped)

def built (b : Built) : String :=
  line ("• " ++ mapping b.source (b.root.getD b.outputRoot)) ++
  stat "Lines" (toString b.lines) ++
  (match b.archive with
    | some archive => stat "Archive" archive.text
    | none => "") ++
  (if b.unclosed = [] then "" else stat "Left open" (toString b.unclosed.length))

def batch (b : Batch) (elapsed : String) : String :=
  String.join (b.built.map built) ++
  (if b.built = [] then ""
    else line "" ++ line ("✓ Compiled " ++ toString b.built.length ++ " file(s) in " ++ elapsed))

def warning (b : Built) : String :=
  if skipped b = 0 then ""
  else line ("⚠ " ++ toString (skipped b) ++ " directive(s) skipped in " ++ b.source.text ++
    ", rerun with --verbose for details")

def diagnosticJson (d : Diagnostic) : Text.Json :=
  .record [("line", .nat d.line), ("kind", .text d.kind.word), ("message", .text d.message)]

def builtJson (b : Built) : Text.Json :=
  .record [
    ("source", .text b.source.text),
    ("output_root", .text b.outputRoot.text),
    ("root", .ofText? (b.root.map Path.text)),
    ("lines", .nat b.lines),
    ("diagnostics", .list (b.diagnostics.map diagnosticJson)),
    ("unclosed", .list (b.unclosed.map fun p => .text p.text)),
    ("archive", .ofText? (b.archive.map Path.text))]

def batchJson (b : Batch) : Text.Json :=
  .record [
    ("files_opened", .nat b.built.length),
    ("results", .list (b.built.map builtJson)),
    ("error", .ofText? (b.error.map BuildError.message))]

def packed (dir : Path) (p : Packed) : String :=
  line ("✓ Packaged " ++ mapping dir p.archive) ++
  stat "Files" (toString p.files) ++ stat "Directories" (toString p.dirs)

def packedJson (p : Packed) : Text.Json :=
  .record [("archive", .text p.archive.text), ("files", .nat p.files), ("dirs", .nat p.dirs)]

def document (value : Text.Json) : String := line (value.render 2)

def print (s : Serializer) (value : Text.Json) : Except (List String) String :=
  match s value with
  | .ok text => .ok (line text)
  | .error reason => .error ["Failed to serialize to JSON", reason]

end Report

/-- A time in words: milliseconds below a second, hundredths of a second from there on. -/
def duration (milliseconds : Nat) : String :=
  let secs := milliseconds / 1000
  let rest := milliseconds % 1000 / 10
  if secs = 0 then toString milliseconds ++ "ms"
  else toString secs ++ "." ++ (if rest < 10 then "0" else "") ++ toString rest ++ "s"

end Datapack.CommandLine
