import Datapack.Script.Directive

/-
  Datapack.Script.Line — what one line of a script asks for.

  - A line of blanks only is blank, and so is the directive marker with blanks behind it.
  - The marker `#> ` is followed by a directive's name, up to a blank, and its arguments.
    If no directive has that name, the line is content, marker and all.
  - `##` marks content that is written without the marker and the spaces behind it.
  - Any other line is content as it stands.
-/

namespace Datapack.Script

inductive Line where
  | blank
  | directive (d : Directive)
  /-- A directive without an argument that it needs. -/
  | malformed (e : MissingArgument)
  /-- Text for the current output file. -/
  | content (text : String)
  deriving DecidableEq, Repr

/-- The start of a directive line; the space belongs to it. -/
def directiveMarker : String := "#> "

/-- The start of a content line that is written without it. -/
def stripMarker : String := "##"

/-- `s` up to its first blank, and what follows that blank. -/
def splitName (s : String) : String × String :=
  (String.ofList (s.toList.takeWhile (!Text.isBlank ·)),
   String.ofList ((s.toList.dropWhile (!Text.isBlank ·)).drop 1))

def Line.ofMarked (line body : String) : Line :=
  let body := Text.trimStart body
  if body = "" then .blank
  else match Directive.parse (splitName body).1 (splitName body).2 with
    | .ok (some d) => .directive d
    | .ok none => .content line
    | .error e => .malformed e

def classify (line : String) : Line :=
  if line.toList.all Text.isBlank then .blank
  else match Text.after? directiveMarker line with
    | some body => Line.ofMarked line body
    | none => match Text.after? stripMarker line with
      | some text => .content (String.ofList (text.toList.dropWhile (· = ' ')))
      | none => .content line

example : classify "#> open a 'b c'" = .directive (.open "a") := by decide +kernel
example : classify "#>  cd" = .malformed ⟨"cd", "path"⟩ := by decide +kernel
example : classify "#> say hi" = .content "#> say hi" := by decide +kernel
example : classify "##  x " = .content "x " := by decide +kernel

end Datapack.Script
