import TreeScript.Assoc

set_option autoImplicit false

/- Files by path. A path is followed name by name from the working directory, or from the root when
it begins with a slash. -/
namespace TreeScript

/-- Why a path could not be opened. -/
inductive FileError where
  | missing
  | notADirectory
  | nameTooLong
  /-- Any other reason, in the words of the system and with its number. -/
  | other (reason : String) (number : Nat)
  deriving Repr, DecidableEq

def FileError.message : FileError → String
  | .missing => "No such file or directory (os error 2)"
  | .notADirectory => "Not a directory (os error 20)"
  | .nameTooLong => "File name too long (os error 36)"
  | .other reason number => reason ++ " (os error " ++ toString number ++ ")"

/-- What can be read at a path: a text, or nothing where a directory or no text was found. -/
abbrev Opened := Except FileError (Option String)

namespace Files

/-- The most bytes of a name, and of a whole path. -/
def nameLimit : Nat := 255

def pathLimit : Nat := 4095

/-- What the names followed so far have led to. -/
inductive Spot where
  | file (text : String)
  | workingDirectory
  /-- A directory around the working directory, of which no files are known. -/
  | surroundings
  deriving Repr, DecidableEq

/-- Looks up a name among the known files of a directory. -/
def lookUp (files : List (String × String)) (name : String) : Except FileError Spot :=
  if nameLimit < name.utf8ByteSize then .error .nameTooLong
  else
    match Assoc.get? files name with
    | some text => .ok (.file text)
    | none => .error .missing

/-- Goes on by one name. No name at all, as between two slashes, stays in a directory. -/
def step (files : List (String × String)) (spot : Spot) (name : String) : Except FileError Spot :=
  match spot with
  | .file _ => .error .notADirectory
  | .workingDirectory =>
      if name = "" ∨ name = "." then .ok .workingDirectory
      else if name = ".." then .ok .surroundings
      else lookUp files name
  | .surroundings =>
      if name = "" ∨ name = "." ∨ name = ".." then .ok .surroundings else lookUp [] name

/-- Follows a path; a slash at its end asks for a directory. -/
def follow (files : List (String × String)) (path : String) : Except FileError Spot :=
  if pathLimit < path.utf8ByteSize then .error .nameTooLong
  else
    let names := (path.toList.splitOn '/').map String.ofList
    let start := if path.toList.head? = some '/' then .surroundings else .workingDirectory
    names.foldlM (step files) start

/-- Opens a path where the working directory holds the given files. -/
def openPath (files : List (String × String)) (path : String) : Opened := do
  match ← follow files path with
  | .file text => .ok (some text)
  | .workingDirectory | .surroundings => .ok none

end Files
end TreeScript
