import PiCalculus.CommandLine
import PiCalculus.Text.Space

/-! The interactive session. It keeps the processes that were parsed and works on the last one. -/

namespace PiCalculus

inductive Repl.Mode
  | command
  /-- Further lines of a text, which an empty one ends. -/
  | source (text : String)
  | finished

structure Repl where
  history : List Program
  mode : Repl.Mode

namespace Repl

def start : Repl := ⟨[], .command⟩

inductive Command
  | nothing
  | exit
  | help
  | history
  | parse (source : String)
  /-- The text follows on further lines. -/
  | parseLines
  | load (file : String)
  | reduce
  | list
  | codegen
  | unknown (word : String)

def Command.ofLine (line : String) : Command :=
  let (word, rest) := firstWord (trim line)
  match word with
  | "" => nothing
  | "exit" => exit
  | "help" => help
  | "history" => history
  | "parse" => if rest = "" then parseLines else parse rest
  | "load" => load rest
  | "reduce" => reduce
  | "show" => list
  | "codegen" => codegen
  | _ => unknown word

def prompt : Mode → Transcript
  | .command => [.out "async-π> "]
  | .source _ => [.out ".......> "]
  | .finished => []

def commands : List (String × String) := [
  ("parse", "Parse an asynchronous π-calculus process."),
  ("load", "Load a file to parse."),
  ("reduce", "Reduce the last parsed process."),
  ("show", "Display subprocesses of the last parsed process."),
  ("codegen", "Generate a fragment of Go code."),
  ("history", "Display history."),
  ("help", "Display this help message."),
  ("exit", "Exit.")]

def helpText : String :=
  "\n".intercalate
    ("Commands available:" :: commands.map fun (word, use) => "\t" ++ word ++ "\t" ++ use)

def historyTranscript (style : Style) (history : List Program) : Transcript :=
  match history with
  | [] => [style.respond "History is empty."]
  | _ => history.zipIdx.map fun (p, i) => style.respond (toString i ++ ":\t" ++ p.calculi)

def parse (style : Style) (r : Repl) (source : String) : Repl × Transcript :=
  match Program.parse source with
  | .ok p => ({ r with history := r.history ++ [p] }, [style.respond p.calculi])
  | .error e => (r, [.err (style.paint .red "Parse failed:" ++ "\n" ++ e.caret source ++ "\n")])

def reduceLast (style : Style) (p : Program) : Program × Transcript × Option Error :=
  let (bound, binding) := p.run .bind
  let (q, reducing) := bound.run (.reduce 1)
  let written := style.respond ("Reducing: " ++ p.calculi)
    :: style.log binding.events ++ style.log reducing.events
  match reducing.result with
  | .error e => (q, written, some e)
  | .ok _ => (q, written ++ [style.respond q.calculi], none)

def generateLast (style : Style) (p : Program) : Program × Transcript × Option Error :=
  let (q, outcome) := p.run (.generate (some ⟨false, false⟩) none)
  let log := style.log outcome.events
  match outcome.result with
  | .error e => (q, log, some e)
  | .ok (.text code) =>
    (q, log ++ [style.respond ("/* start generated code */\n\n" ++ code
      ++ "\n\n/* end generated code */")], none)
  | .ok _ => (q, log, none)

/-- Works on the process that was parsed last. -/
def onLast (style : Style) (r : Repl) (word : String)
    (work : Program → Program × Transcript × Option Error) : Repl × Transcript :=
  match r.history.getLast? with
  | none => (r, [.err (style.paint .red ("No last process to " ++ word ++ ".") ++ "\n")])
  | some p =>
    let (q, written, failure) := work p
    let told := match failure with
      | none => []
      | some e => (Failure.calculus e).transcript style
    ({ r with history := r.history.dropLast ++ [q] }, written ++ told)

def perform (style : Style) (read : Reader) (r : Repl) : Command → Repl × Transcript
  | .nothing => (r, [])
  | .exit => ({ r with mode := .finished }, [])
  | .help => (r, [style.respond helpText])
  | .history => (r, historyTranscript style r.history)
  | .parse source => r.parse style source
  | .parseLines => ({ r with mode := .source "" }, [])
  | .load file =>
    match read file with
    | .error e => (r, (Failure.read file e.message).transcript style)
    | .ok source =>
      let (r', written) := r.parse style source
      (r', style.respond ("Loading: " ++ file) :: written)
  | .reduce => r.onLast style "reduce" (reduceLast style)
  | .list => r.onLast style "show" (Program.list style)
  | .codegen => r.onLast style "codegen" (generateLast style)
  | .unknown word =>
    (r, [.err (style.paint .red "Unrecognised command:" ++ " " ++ word ++ "\n"),
      style.respond helpText])

/-- Takes in a line, or the end of the input. -/
def feed (style : Style) (read : Reader) (r : Repl) (line : Option String) : Repl × Transcript :=
  match r.mode, line with
  | .finished, _ => (r, [])
  | .command, none => ({ r with mode := .finished }, [])
  | .command, some line => r.perform style read (.ofLine line)
  | .source text, some line =>
    if trim line = "" then { r with mode := .command }.parse style text
    else ({ r with mode := .source (text ++ line ++ "\n") }, [])
  | .source text, none => { r with mode := .command }.parse style text

/-- The file that a line asks to read. -/
def fileAsked (r : Repl) (line : String) : Option String :=
  match r.mode, Command.ofLine line with
  | .command, .load file => some file
  | _, _ => none

/-- Takes in lines up to the end of the input, where a text that is still open ends too. -/
def run (style : Style) (read : Reader) (r : Repl) : List String → Transcript
  | [] =>
    let (r', written) := r.feed style read none
    prompt r.mode ++ written ++ prompt r'.mode
  | line :: lines =>
    match r.mode with
    | .finished => []
    | _ =>
      let (r', written) := r.feed style read (some line)
      prompt r.mode ++ written ++ r'.run style read lines

end Repl

end PiCalculus
