/-! Files that commands read. -/

namespace PiCalculus

/-- Why a file cannot be read. -/
inductive ReadError
  | missing
  | directory
  /-- The path goes on at a file as if it were a directory. -/
  | notDirectory
  | other (reason : String)

def ReadError.message : ReadError → String
  | missing => "No such file or directory (os error 2)"
  | directory => "Is a directory (os error 21)"
  | notDirectory => "Not a directory (os error 20)"
  | other reason => reason

/-- Finds the contents of a file by its name. -/
abbrev Reader := String → Except ReadError String

/-- The steps of a path other than those that stay where they are. -/
def pathSteps (name : String) : List String :=
  (name.splitOn "/").filter fun step => step ≠ "" ∧ step ≠ "."

/-- Whether a path ends as only that of a directory does. -/
def endsInDirectory (name : String) : Bool :=
  (name.splitOn "/").getLast?.any fun step => step = "" ∨ step = "."

/-- The files of the working directory, given by their names and contents. Beside them only the
directories that they are in, and those above, can be found. -/
def Reader.ofFiles (files : List (String × String)) : Reader := fun name =>
  let steps := pathSteps name
  let within := if "/".isPrefixOf name then [] else files
  match within.find? fun (file, _) => pathSteps file = steps with
  | some (_, text) => if endsInDirectory name then .error .notDirectory else .ok text
  | none =>
    let isAbove := fun (file : String × String) => steps.isPrefixOf (pathSteps file.1)
    let isBelow := fun (file : String × String) => (pathSteps file.1).isPrefixOf steps
    if name ≠ "" ∧ (steps.all (· == "..") ∨ within.any isAbove) then .error .directory
    else if within.any isBelow then .error .notDirectory
    else .error .missing

end PiCalculus
