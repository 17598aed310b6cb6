import Datapack.CommandLine.Report
import Datapack.Log.Filter

/-
  Datapack.CommandLine.Program — the program as a function.

  From the arguments, the filter for log lines in the environment, and the disk, to the
  disk afterwards, the two streams and the exit code: 0 when all went well, 1 when it
  did not, 2 for arguments that ask for nothing sensible.

  Log lines come first on the error stream, then warnings about directives that did
  nothing, then the error. The filter in the environment takes the place of the usual
  one; what scripts say through `log` is added to either.

  Two things are left to libraries, and a parameter here (`runWith`): the text of a JSON
  document, and what is said of arguments that are refused.
-/

namespace Datapack.CommandLine

structure Output where
  exit : Nat
  out : String
  err : String
  deriving DecidableEq, Repr

def filterText (environment : Option String) (verbose : Bool) : String :=
  environment.getD (if verbose then "warn,mcfc_lib=debug,mcfc=debug" else "warn") ++ "," ++
    Log.Part.script.target ++ "=info"

/-- The filter, or only warnings if it is malformed. -/
def effectiveFilter (environment : Option String) (verbose : Bool) : Log.Filter :=
  (Log.Filter.parse? (filterText environment verbose)).getD .warnings

def logLines (filter : Log.Filter) (events : List Log.Event) : String :=
  String.join ((events.filter filter.passes).map Log.Event.line)

def starting (jobs : Nat) (zip : Bool) : Log.Event :=
  ⟨.debug, .command, "starting build", [("sources", toString jobs), ("zip", toString zip)]⟩

section

variable (s : Serializer)

def build (i : Invocation) (filter : Log.Filter) (elapsed : String) (d : Disk)
    (files : List Path) (output : Option Path) (zip : Bool) (archive : Option Path) :
    Disk × Output :=
  if archive.isSome && 1 < files.length then
    (d, ⟨1, "", errorLine ["--archive can only be used with a single source file"]⟩)
  else
    let batch := buildAll (files.map fun file => ⟨file, output, zip, archive⟩) d
    let told := logLines filter (starting files.length zip :: batch.events)
    let report := match i.format with
      | .json => Report.print s (Report.batchJson batch)
      | .text => .ok (Report.batch batch elapsed)
    let warnings := if i.format = .text && !i.verbose then
        String.join (batch.built.map Report.warning)
      else ""
    match report, batch.error with
    -- Without a report the error of the batch is not told either.
    | .error chain, _ => (batch.disk, ⟨1, "", told ++ errorLine chain⟩)
    | .ok out, none => (batch.disk, ⟨0, out, told ++ warnings⟩)
    | .ok out, some e =>
      (batch.disk,
        ⟨1, out, told ++ warnings ++ errorLine ("compilation aborted" :: e.message :: e.causes)⟩)

def pack (i : Invocation) (filter : Log.Filter) (d : Disk) (dir : Path) (output : Option Path) :
    Disk × Output :=
  match Archive.choosePath output dir with
  | .error e => (d, ⟨1, "", errorLine [e.message]⟩)
  | .ok archive =>
    let p := Archive.package d dir archive
    let told := logLines filter (Job.packingEvents p)
    match p.result with
    | .error e =>
      let chain := ("Failed to package " ++ dir.text) :: e.message :: e.causes
      (p.disk, ⟨1, "", told ++ errorLine chain⟩)
    | .ok packed =>
      let report := match i.format with
        | .json => Report.print s (Report.packedJson packed)
        | .text => .ok (Report.packed dir packed)
      match report with
      | .error chain => (p.disk, ⟨1, "", told ++ errorLine chain⟩)
      | .ok out => (p.disk, ⟨0, out, told⟩)

end

/-! ## Help -/

def table (rows : List (String × String)) : String :=
  let width := (rows.map (·.1.length)).foldl max 0
  String.join <| rows.map fun row =>
    line ("  " ++ row.1 ++ String.ofList (List.replicate (width + 2 - row.1.length) ' ') ++ row.2)

def helpOption : String × String := ("-h, --help", "Print help")

def verboseOption : String × String := ("-v, --verbose", "Enable verbose output")

def formatOption : String × String :=
  ("    --format <FORMAT>", "Output format [default: text] [possible values: text, json]")

def commandTable : List (String × String) := [
  ("build", "Compile one or more source files"),
  ("pack", "Zip an existing datapack directory"),
  ("help", "Print this message or the help of the given subcommand(s)")]

def helpOf (command : String) : String :=
  line ((commandTable.lookup command).getD "") ++ line "" ++
  match command with
  | "build" =>
    line "Usage: mcfc build [OPTIONS] <FILES>..." ++ line "" ++
    line "Arguments:" ++ table [("<FILES>...", "Source files, processed in order")] ++ line "" ++
    line "Options:" ++ table [
      ("-o, --output <OUTPUT>", "Output root (default: each source file's directory)"),
      verboseOption,
      formatOption,
      ("-z, --zip", "Zip the datapack after compiling"),
      ("    --archive <ARCHIVE>", "Archive path; implies --zip (single source only)"),
      helpOption]
  | "pack" =>
    line "Usage: mcfc pack [OPTIONS] <DIR>" ++ line "" ++
    line "Arguments:" ++ table [("<DIR>", "The datapack directory")] ++ line "" ++
    line "Options:" ++ table [
      ("-o, --output <OUTPUT>", "Archive path (default: <dir>.zip next to the directory)"),
      verboseOption,
      formatOption,
      helpOption]
  | _ =>
    line "Usage: mcfc help [COMMAND]..." ++ line "" ++
    line "Arguments:" ++ table [("[COMMAND]...", "Print help for the subcommand(s)")]

def usageLine : String := line "Usage: mcfc [OPTIONS] <COMMAND>"

def help : Option String → String
  | some command => helpOf command
  | none =>
    line "mcfc - compile `#>` directive sources into datapacks" ++ line "" ++
    usageLine ++ line "" ++
    line "Commands:" ++ table commandTable ++ line "" ++
    line "Options:" ++
      table [verboseOption, formatOption, helpOption, ("-V, --version", "Print version")]

def versionText : String := line "mcfc 0.3.0"

/-! ## The program -/

structure Libraries where
  serialize : Serializer
  /-- What is said of arguments that ask for nothing sensible. -/
  refuse : List String → String

/-- Every report is written, and refused arguments are answered with a hint only. -/
def Libraries.plain : Libraries where
  serialize := .plain
  refuse _ := usageLine ++ line "" ++ line "For more information, try '--help'."

/-- Runs the program; `elapsed` is the time that the report will name. -/
def runWith (lib : Libraries) (args : List String) (environment : Option String)
    (elapsed : String) (d : Disk) : Disk × Output :=
  match parse args with
  | .error (.help command) => (d, ⟨0, help command, ""⟩)
  | .error .version => (d, ⟨0, versionText, ""⟩)
  | .error .usage => (d, ⟨2, "", lib.refuse args⟩)
  | .ok i =>
    let filter := effectiveFilter environment i.verbose
    match i.command with
    | .build files output zip archive =>
      build lib.serialize i filter elapsed d files output zip archive
    | .pack dir output => pack lib.serialize i filter d dir output

def run : List String → Option String → String → Disk → Disk × Output := runWith .plain

end Datapack.CommandLine
