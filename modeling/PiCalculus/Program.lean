import PiCalculus.Console
import PiCalculus.Operation
import PiCalculus.Process.Free
import PiCalculus.Text.Quoted

/-! A process with a store of its own, as commands work on it. -/

namespace PiCalculus

structure Program where
  process : Process Name
  store : Store

inductive Failure
  | read (path reason : String)
  | malformed (error : SyntaxError)
  | calculus (error : Error)

def Failure.transcript (style : Style) : Failure → Transcript
  | read path reason =>
    [.err (style.paint .red "Could not read file" ++ ": " ++ path ++ " (" ++ reason ++ ")\n")]
  | malformed e => [.report e.report]
  | calculus (.type e) => [.report e.report]
  | calculus e => [.err (style.paint .red e.message ++ "\n")]

namespace Program

def parse (source : String) : Except SyntaxError Program :=
  (PiCalculus.parse source).map fun p =>
    let (process, store) := Store.empty.load p
    ⟨process, store⟩

def calculi (p : Program) : String := p.store.calculi p.process

/-- Performs an operation and drops the names that do not occur any more. -/
def run (p : Program) (op : Operation) : Program × Operation.Outcome :=
  let outcome := op.run [] p.store p.process
  (⟨outcome.process, outcome.store.retain outcome.process.occurrences⟩, outcome)

/-- Every subprocess with its free names and variables. -/
def subprocessLines (style : Style) (p : Program) : Transcript :=
  let labels := fun names : List Name => quoteAll (names.map p.store.label)
  p.process.breadthFirst.map fun q =>
    .out (style.paint .cyan (p.store.calculi q) ++ "\n\tfn = " ++ labels (q.freeNames p.store)
      ++ "\n\tfv = " ++ labels (q.freeVars p.store) ++ "\n")

/-- Lists the subprocesses with the sorts that their places show, and sets the sorts back. -/
def list (style : Style) (p : Program) : Program × Transcript × Option Error :=
  let (bound, binding) := p.run .bind
  let (sorted, sorting) := bound.run .identifySorts
  match sorting.result with
  | .error e => (sorted, style.log binding.events, some e)
  | .ok _ =>
    let (reset, resetting) := sorted.run .resetSorts
    let written := style.log binding.events ++ sorted.subprocessLines style
    match resetting.result with
    | .error e => (reset, written, some e)
    | .ok _ => (reset, written, none)

end Program

end PiCalculus
