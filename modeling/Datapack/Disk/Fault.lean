/-
  Datapack.Disk.Fault — why a call on the disk fails, and how that is worded.
-/

namespace Datapack

inductive Fault where
  | notFound
  | busy
  | alreadyExists
  | notADirectory
  | isADirectory
  | invalid
  | nameTooLong
  | notEmpty
  | tooManyLinks
  | nulInPath
  deriving DecidableEq, Repr

namespace Fault

/-- The number that the system gives a fault; a path with NUL never reaches the system. -/
def code? : Fault → Option Nat
  | notFound => some 2
  | busy => some 16
  | alreadyExists => some 17
  | notADirectory => some 20
  | isADirectory => some 21
  | invalid => some 22
  | nameTooLong => some 36
  | notEmpty => some 39
  | tooManyLinks => some 40
  | nulInPath => none

def words : Fault → String
  | notFound => "No such file or directory"
  | busy => "Device or resource busy"
  | alreadyExists => "File exists"
  | notADirectory => "Not a directory"
  | isADirectory => "Is a directory"
  | invalid => "Invalid argument"
  | nameTooLong => "File name too long"
  | notEmpty => "Directory not empty"
  | tooManyLinks => "Too many levels of symbolic links"
  | nulInPath => "file name contained an unexpected NUL byte"

def message (f : Fault) : String :=
  match f.code? with
  | some n => f.words ++ " (os error " ++ toString n ++ ")"
  | none => f.words

def messageAt (f : Fault) (path : String) : String :=
  "IO error for operation on " ++ path ++ ": " ++ f.message

example : message .notEmpty = "Directory not empty (os error 39)" := by decide +kernel

end Fault

end Datapack
