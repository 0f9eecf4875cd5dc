import PiCalculus.Files
import PiCalculus.Program

/-! Commands on the process in a file. -/

namespace PiCalculus

/-- What to do with the process in a file. -/
inductive FileCommand
  | parse
  | reduce (maxSteps : Nat)
  | list
  | types
  | codegen (options : Code.Options)

namespace FileCommand

/-- Takes single steps and tells the process after each. -/
def reduceSteps (style : Style) (taken : Nat) : Nat → Program → Transcript × Option Error
  | 0, _ => ([.out (style.paint .yellow ("Stopped after " ++ toString taken ++ " steps.") ++ "\n")],
    none)
  | more + 1, p =>
    let (q, outcome) := p.run (.reduce 1)
    match outcome.result with
    | .error e => (style.log outcome.events, some e)
    | .ok (.count 1) =>
      let step := .out (style.paint .grey "->" ++ " " ++ style.paint .cyan q.calculi ++ "\n")
      let (rest, failure) := reduceSteps style (taken + 1) more q
      (style.log outcome.events ++ step :: rest, failure)
    | .ok _ => (style.log outcome.events, none)

/-- Performs a command: what it writes, and why it failed if it did. -/
def run (style : Style) (command : FileCommand) (p : Program) : Transcript × Option Error :=
  match command with
  | parse => ([.out (p.calculi ++ "\n")], none)
  | reduce maxSteps =>
    let (bound, outcome) := p.run .bind
    let (steps, failure) := reduceSteps style 0 maxSteps bound
    (style.log outcome.events ++ style.respond bound.calculi :: steps, failure)
  | list =>
    let (_, written, failure) := p.list style
    (written, failure)
  | types =>
    let (q, outcome) := p.run .check
    match outcome.result with
    | .error e => (style.log outcome.events, some e)
    | .ok _ =>
      (style.log outcome.events ++ [.out (q.store.channelTypes q.process ++ "\n")], none)
  | codegen options =>
    let (_, outcome) := p.run (.generate (some options) none)
    match outcome.result with
    | .error e => (style.log outcome.events, some e)
    | .ok (.text code) => (style.log outcome.events ++ [.out (code ++ "\n")], none)
    | .ok _ => (style.log outcome.events, none)

end FileCommand

/-- What a command wrote, and the code that it ends with. -/
structure Exit where
  transcript : Transcript
  code : Nat

/-- Performs a command on the process in a file. An unreadable file is told of but no failure. Why a
command failed is told after the process is gone, with all its names. -/
def FileCommand.runFile (style : Style) (read : Reader) (command : FileCommand) (file : String) :
    Exit :=
  match read file with
  | .error e => ⟨(Failure.read file e.message).transcript style, 0⟩
  | .ok source =>
    match Program.parse source with
    | .error e => ⟨(Failure.malformed e).transcript style, 1⟩
    | .ok p =>
      match command.run style p with
      | (written, none) => ⟨written, 0⟩
      | (written, some e) => ⟨written ++ (Failure.calculus e.withoutNames).transcript style, 1⟩

end PiCalculus
