import PiCalculus.Invocation

/-! The program itself: it fetches arguments, files and typed lines, and writes what comes of it. -/

namespace PiCalculus.Main

def readFile (name : String) : IO (Except ReadError String) := do
  try
    return .ok (← IO.FS.readFile name)
  catch
    | .noFileOrDirectory .. => return .error .missing
    | .inappropriateType .. => return .error .directory
    | e => return .error (.other (toString e))

def write (transcript : Transcript) : IO Unit := do
  let out ← IO.getStdout
  let err ← IO.getStderr
  for piece in transcript do
    match piece with
    | .out text => out.putStr text; out.flush
    | .err text => err.putStr text
    | .report r =>
      err.putStrLn r.message
      for line in r.help.toList do
        err.putStrLn line

/-- Whether to write colours. The surroundings can force or forbid them; otherwise a terminal is
written to in colours. -/
def coloursWanted : IO Bool := do
  let isOn := fun value : Option String => value.any (· ≠ "0")
  if isOn (← IO.getEnv "CLICOLOR_FORCE") then return true
  if (← IO.getEnv "NO_COLOR").isSome then return false
  if (← IO.getEnv "CLICOLOR") = some "0" then return false
  (← IO.getStdout).isTty

/-- Feeds typed lines to the session until it ends. -/
partial def interact (style : Style) (r : Repl) : IO Unit := do
  write (Repl.prompt r.mode)
  match r.mode with
  | .finished => return
  | _ =>
    let typed ← (← IO.getStdin).getLine
    let line := if typed.isEmpty then none
      else some (String.ofList ((lines typed.toList).headD []))
    let contents ← match line.bind r.fileAsked with
      | some file => readFile file
      | none => pure (.error .missing)
    let (r', written) := r.feed style (fun _ => contents) line
    write written
    interact style r'

def run (args : List String) : IO UInt32 := do
  match Invocation.ofArgs? args with
  | none =>
    IO.eprintln "usage: [-v] [--no-colour] [parse|reduce|show|types|codegen FILE | repl]"
    return 2
  | some i =>
    let style := i.style (← coloursWanted)
    match i.action with
    | .interactive =>
      interact style .start
      return 0
    | .file command name =>
      let contents ← readFile name
      let exit := command.runFile style (fun _ => contents) name
      write exit.transcript
      return exit.code.toUInt32

end PiCalculus.Main

def main (args : List String) : IO UInt32 := PiCalculus.Main.run args
