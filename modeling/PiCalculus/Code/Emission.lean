import PiCalculus.Code.Statement
import PiCalculus.Process.Basic
import PiCalculus.Store.Chain

/-! Writing a process as a block of Go. Restricted names are declared where they are restricted, and
the components of a composition run beside the last one. -/

namespace PiCalculus

namespace Code

/-- Runs blocks side by side, the last one in place. -/
def beside {τ : Type} : List (List (Statement τ)) → List (Statement τ)
  | [] => []
  | [block] => block
  | block :: more => .spawn block :: beside more

/-- Declares a name of the type: a channel is made, anything else is left empty. -/
def introduce {ρ : Type} (name : String) : Ty ρ → Statement (Ty ρ)
  | .chan t => .make name (.chan t)
  | t => .declare name t

structure Options where
  /-- Makes the block the main function of a program. -/
  main : Bool
  /-- Announces the process in a comment, and its start and end while it runs. -/
  debug : Bool

/-- The code with what the options put around it, if there are any. -/
def wrap (options : Option Options) (calculi code : String) : String :=
  match options with
  | none => code
  | some options =>
    (if options.main then "package main\nfunc main() \x7b\n" else "")
      ++ (if options.debug then
          "// Process " ++ calculi ++ "\nfmt.Fprintln(os.Stderr, \"--- start ---\");" else "")
      ++ code
      ++ (if options.debug then "fmt.Fprintln(os.Stderr, \"--- end ---\");" else "")
      ++ (if options.main then "\n\x7d" else "")

end Code

/-- The block that does what the process does, by the types that its names now have. -/
def Store.block (s : Store) : Process Name → List (Code.Statement (Ty Name))
  | .nil => [.finish]
  | .send chan [] => [.send (s.label chan) none]
  | .send chan [value] => [.send (s.label chan) (some (s.label value))]
  | .send chan values => [.sendAll (s.label chan) (values.map fun v => (s.label v, s.type v))]
  | .receive chan vars body => .receive (s.label chan) (vars.map s.label) :: s.block body
  | .par ps => Code.beside (ps.map s.block)
  | .replicate body => [.loop (s.block body)]
  | .restrict name body =>
    Code.introduce (s.label name) (s.deref (s.type name)) :: s.block body
termination_by p => sizeOf p

end PiCalculus
