import Datapack.Path

/-
  Datapack.CommandLine.Arguments — what the arguments of the program ask for.

  The program has two commands, `build` and `pack`. An option has a long name and often
  a letter; letters may be run together behind one dash. A value follows its option,
  behind `=` or, for a letter, directly; standing alone it may not begin with a dash,
  unless it is a single one. Behind `--` everything is a file name. No option may be
  given twice at the same level, and paths may not be empty.

  `-v` and `--format` may stand before or behind the command; what stands behind it
  counts. Arguments are read in order and the first that asks for help or the version,
  or is wrong, decides.
-/

namespace Datapack.CommandLine

inductive Format where
  | text
  | json
  deriving DecidableEq, Repr

inductive Command where
  | build (files : List Path) (output : Option Path) (zip : Bool) (archive : Option Path)
  | pack (dir : Path) (output : Option Path)
  deriving DecidableEq, Repr

structure Invocation where
  verbose : Bool
  format : Format
  command : Command
  deriving DecidableEq, Repr

inductive Stop where
  /-- The help of a command is asked for, or that of the program. -/
  | help (command : Option String)
  | version
  | usage
  deriving DecidableEq, Repr

inductive Key where
  | verbose
  | format
  | output
  | zip
  | archive
  | help
  | version
  deriving DecidableEq, Repr

namespace Key

def long : Key → String
  | verbose => "verbose"
  | format => "format"
  | output => "output"
  | zip => "zip"
  | archive => "archive"
  | help => "help"
  | version => "version"

def letter? : Key → Option Char
  | verbose => some 'v'
  | output => some 'o'
  | zip => some 'z'
  | help => some 'h'
  | version => some 'V'
  | format | archive => none

def takesValue : Key → Bool
  | format | output | archive => true
  | verbose | zip | help | version => false

def accepts (k : Key) (value : String) : Bool :=
  match k with
  | format => value = "text" || value = "json"
  | output | archive => value ≠ ""
  | _ => true

end Key

/-- What has been read at one level: options with their values, and the other arguments. -/
structure Reading where
  options : List (Key × String)
  operands : List String
  deriving DecidableEq, Repr

namespace Reading

def none : Reading := ⟨[], []⟩

def has (r : Reading) (k : Key) : Bool := r.options.any (·.1 = k)

def value? (r : Reading) (k : Key) : Option String := r.options.lookup k

def put (r : Reading) (k : Key) (value : String) : Except Stop Reading :=
  match k with
  | .help => .error (.help .none)
  | .version => .error .version
  | _ =>
    if r.has k || !k.accepts value then .error .usage
    else .ok { r with options := r.options ++ [(k, value)] }

/-- One more argument that is no option; at most `most` are allowed, and none empty. -/
def operand (r : Reading) (most : Option Nat) (arg : String) : Except Stop Reading :=
  if arg = "" || most.any (· ≤ r.operands.length) then .error .usage
  else .ok { r with operands := r.operands ++ [arg] }

/-- The letters behind one dash. Gives the option that still needs a value, if the last
letter is one. -/
def letters (keys : List Key) : Reading → List Char → Except Stop (Reading × Option Key)
  | r, [] => .ok (r, .none)
  | r, c :: cs =>
    match keys.find? (·.letter? = some c) with
    | .none => .error .usage
    | some k =>
      if k.takesValue then
        match cs with
        | [] => .ok (r, some k)
        | '=' :: value => (r.put k (String.ofList value)).map (·, .none)
        | value => (r.put k (String.ofList value)).map (·, .none)
      else match r.put k "" with
        | .error stop => .error stop
        | .ok r => letters keys r cs

/-- The name behind two dashes, with the value behind `=` if there is one. -/
def word (keys : List Key) (r : Reading) (cs : List Char) :
    Except Stop (Reading × Option Key) :=
  let name := String.ofList (cs.takeWhile (· ≠ '='))
  let value := cs.dropWhile (· ≠ '=')
  match keys.find? (·.long = name) with
  | .none => .error .usage
  | some k =>
    match k.takesValue, value with
    | true, [] => .ok (r, some k)
    | true, _ :: value => (r.put k (String.ofList value)).map (·, .none)
    | false, [] => (r.put k "").map (·, .none)
    | false, _ :: _ => .error .usage

/-- Reads the arguments of one level: up to a command where commands are expected, else
all. Gives the command and the arguments behind it as well. `waiting` is the option that
needs a value. -/
def level (keys : List Key) (commands : List String) (most : Option Nat) :
    Reading → (waiting : Option Key) → List String →
    Except Stop (Reading × Option (String × List String))
  | r, .none, [] => .ok (r, .none)
  | _, some _, [] => .error .usage
  | r, waiting, arg :: args =>
    if waiting.isNone && commands.contains arg then .ok (r, some (arg, args))
    else match arg.toList, waiting with
      | ['-', '-'], some _ => .error .usage
      | ['-', '-'], .none =>
        if commands = [] then (args.foldlM (fun r arg => operand r most arg) r).map (·, .none)
        else .error .usage
      | '-' :: _ :: _, some _ => .error .usage
      | '-' :: '-' :: cs, .none =>
        match word keys r cs with
        | .error stop => .error stop
        | .ok (r, waiting) => level keys commands most r waiting args
      | '-' :: c :: cs, .none =>
        match letters keys r (c :: cs) with
        | .error stop => .error stop
        | .ok (r, waiting) => level keys commands most r waiting args
      | _, some k =>
        match r.put k arg with
        | .error stop => .error stop
        | .ok r => level keys commands most r .none args
      | _, .none =>
        if commands = [] then
          match r.operand most arg with
          | .error stop => .error stop
          | .ok r => level keys commands most r .none args
        else .error .usage

end Reading

def commandNames : List String := ["build", "pack", "help"]

def Reading.path? (r : Reading) (k : Key) : Option Path := (r.value? k).map Path.mk

def Command.ofReading (name : String) (r : Reading) : Except Stop Command :=
  match name, r.operands with
  | "build", [] => .error .usage
  | "build", files =>
    .ok (.build (files.map Path.mk) (r.path? .output) (r.has .zip) (r.path? .archive))
  | "pack", [dir] => .ok (.pack ⟨dir⟩ (r.path? .output))
  | _, _ => .error .usage

/-- The options behind a command, and how many other arguments it takes. -/
def grammar : String → List Key × Option Nat
  | "build" => ([.verbose, .format, .output, .zip, .archive, .help], none)
  | _ => ([.verbose, .format, .output, .help], some 1)

def Reading.format? (r : Reading) : Option Format :=
  (r.value? .format).map fun value => if value = "json" then .json else .text

def parse (args : List String) : Except Stop Invocation :=
  match Reading.level [.verbose, .format, .help, .version] commandNames (some 0) .none none
      args with
  | .error stop => .error stop
  | .ok (_, none) => .error .usage
  | .ok (_, some ("help", [])) => .error (.help none)
  | .ok (_, some ("help", [name])) =>
    .error (if commandNames.contains name then .help (some name) else .usage)
  | .ok (_, some ("help", _)) => .error .usage
  | .ok (front, some (name, args)) =>
    match Reading.level (grammar name).1 [] (grammar name).2 .none none args with
    | .error (.help _) => .error (.help (some name))
    | .error stop => .error stop
    | .ok (back, _) =>
      (Command.ofReading name back).map fun command =>
        { verbose := front.has .verbose || back.has .verbose
          format := (back.format?.orElse fun _ => front.format?).getD .text
          command }

example : (parse ["-v", "build", "a", "-zo=out", "b"]).toOption =
    some ⟨true, .text, .build [⟨"a"⟩, ⟨"b"⟩] (some ⟨"out"⟩) true none⟩ := by decide +kernel
example : (parse ["build"]).toOption = none ∧ (parse ["build", "--", "-x"]).toOption =
    some ⟨false, .text, .build [⟨"-x"⟩] none false none⟩ := by decide +kernel

end Datapack.CommandLine
