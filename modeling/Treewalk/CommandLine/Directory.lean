/-!
# Files by name

A working directory as the files in it, and what reading a path from there gives. Names of files
may lead through directories of their own. Of what lies outside, only that it is there is known.

Names and paths have a greatest length, counted in bytes of UTF-8. A path that is too long is
refused before any step is taken; a name that is too long is refused when its step is reached, so
a fault in an earlier step comes first.
-/

namespace Treewalk.CommandLine

/-- A cause for a file not to be read. -/
inductive ReadFailure where
  | missing
  | isDirectory
  | notDirectory
  | nameTooLong
  | notText
  | other (reason : String)
deriving DecidableEq

/-- The wording of a read failure. -/
def ReadFailure.reason : ReadFailure → String
  | .missing => "No such file or directory (os error 2)"
  | .isDirectory => "Is a directory (os error 21)"
  | .notDirectory => "Not a directory (os error 20)"
  | .nameTooLong => "File name too long (os error 36)"
  | .notText => "stream did not contain valid UTF-8"
  | .other reason => reason

/-- A working directory: the bytes of its files. -/
structure Directory where
  files : List (String × List UInt8)

namespace Directory

/-- The steps of a path. -/
def steps (path : String) : List String := path.splitOn "/"

/-- The bytes of the file at a place in the directory. -/
def file? (directory : Directory) (place : List String) : Option (List UInt8) :=
  (directory.files.find? fun file => steps file.1 = place).map Prod.snd

/-- Does a file of the directory lie below a place? -/
def leadsOn (directory : Directory) (place : List String) : Bool :=
  directory.files.any fun file =>
    (steps file.1).take place.length = place ∧ place.length < (steps file.1).length

/-- A step that stays where it is. -/
def isIdle (step : String) : Bool := step = "" ∨ step = "."

/-- The greatest number of bytes in the name of a step. -/
def maxNameBytes : Nat := 255

/-- The greatest number of bytes in a path. -/
def maxPathBytes : Nat := 4095

/-- Follows steps outside the directory, where no name is known. -/
def outside : List String → ReadFailure
  | [] => .isDirectory
  | step :: rest =>
    if isIdle step ∨ step = ".." then outside rest
    else if maxNameBytes < step.utf8ByteSize then .nameTooLong
    else .missing

/-- Follows steps from a place in the directory. -/
def follow (directory : Directory) (place : List String) :
    List String → Except ReadFailure (List UInt8)
  | [] => .error .isDirectory
  | step :: rest =>
    if isIdle step then directory.follow place rest
    else if step = ".." then
      if place = [] then .error (outside rest) else directory.follow place.dropLast rest
    else if maxNameBytes < step.utf8ByteSize then .error .nameTooLong
    else
      match directory.file? (place ++ [step]) with
      | some bytes => if rest = [] then .ok bytes else .error .notDirectory
      | none =>
        if directory.leadsOn (place ++ [step]) then directory.follow (place ++ [step]) rest
        else .error .missing

/-- Reads a file by its path. -/
def read (directory : Directory) (path : String) : Except ReadFailure (List UInt8) :=
  if maxPathBytes < path.utf8ByteSize then .error .nameTooLong
  else if path.toList.head? = some '/' then .error (outside (steps path))
  else directory.follow [] (steps path)

end Directory

end Treewalk.CommandLine
