import Datapack.Script.Token

/-
  Datapack.Script.Directive — the twelve directives and how they are read.

  A directive has a name and arguments. All but `log` take the arguments of the text
  behind the name and ignore further ones; `log` takes that text itself, trimmed. An
  argument that a directive cannot do without and that is missing is an error
  (`MissingArgument`); a name that no directive has is none.
-/

namespace Datapack.Script

inductive Directive where
  /-- Go to the datapack root. -/
  | root
  /-- Go to the home directory. -/
  | home
  /-- Make a directory, or the working location, the home. -/
  | sethome (path : Option String)
  /-- Lay out a datapack at the working location. -/
  | init (ns : String) (packFormat description : Option String)
  /-- Move the working location. -/
  | cd (path : String)
  | mkdir (path : String)
  /-- Remove a directory and all that is in it. -/
  | rmdir (path : String)
  /-- Empty a directory, or the working location. -/
  | clear (path : Option String)
  /-- Send the following text to a file. -/
  | «open» (path : String)
  /-- Go back to the file that was open before. -/
  | close
  /-- Delete a file. -/
  | del (path : String)
  /-- Say something to the user. -/
  | log (message : String)
  deriving DecidableEq, Repr

structure MissingArgument where
  directive : String
  argument : String
  deriving DecidableEq, Repr

def MissingArgument.message (e : MissingArgument) : String :=
  "directive '" ++ e.directive ++ "' is missing required argument <" ++ e.argument ++ ">"

namespace Directive

def name : Directive → String
  | root => "root"
  | home => "home"
  | sethome _ => "sethome"
  | init .. => "init"
  | cd _ => "cd"
  | mkdir _ => "mkdir"
  | rmdir _ => "rmdir"
  | clear _ => "clear"
  | «open» _ => "open"
  | close => "close"
  | del _ => "del"
  | log _ => "log"

def need (directive argument : String) : List String → Except MissingArgument String
  | arg :: _ => .ok arg
  | [] => .error ⟨directive, argument⟩

def ofPath (name : String) (make : String → Directive) (args : List String) :
    Except MissingArgument (Option Directive) :=
  (need name "path" args).map fun path => some (make path)

/-- The directive with this name and `rest` behind it; none if the name is no directive's. -/
def parse (name rest : String) : Except MissingArgument (Option Directive) :=
  let args := tokenize rest
  match name with
  | "root" => .ok (some root)
  | "home" => .ok (some home)
  | "sethome" => .ok (some (sethome args[0]?))
  | "init" => (need name "namespace" args).map fun ns => some (init ns args[1]? args[2]?)
  | "cd" => ofPath name cd args
  | "mkdir" => ofPath name mkdir args
  | "rmdir" => ofPath name rmdir args
  | "clear" => .ok (some (clear args[0]?))
  | "open" => ofPath name «open» args
  | "close" => .ok (some close)
  | "del" => ofPath name del args
  | "log" =>
    let message := Text.trim rest
    if message = "" then .error ⟨name, "message"⟩ else .ok (some (log message))
  | _ => .ok none

end Directive

end Datapack.Script
