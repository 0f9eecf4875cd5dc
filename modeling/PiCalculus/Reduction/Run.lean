import PiCalculus.Process.Load
import PiCalculus.Reduction.Communication
import PiCalculus.Reduction.Congruence

/-! Reducing as long as communications are due, each step followed by tidying. -/

namespace PiCalculus

/-- How far a reduction came: what it left, the steps it took, and why it failed if it did. -/
structure Reduction where
  process : Process Name
  store : Store
  steps : Nat
  failure : Option Error
  events : List Event

namespace Store

/-- Takes at most so many steps after those that have been taken. -/
def reduceFrom (taken : Nat) : Nat → Store → Process Name → Reduction
  | 0, s, p => ⟨p, s, taken, none, []⟩
  | more + 1, s, p =>
    match s.reduceOnce p with
    | .error e => ⟨p, s, taken, some e, []⟩
    | .ok none => ⟨p, s, taken, none, []⟩
    | .ok (some q) =>
      let tidy := q.process.simplify q.store.label
      let rest := reduceFrom (taken + 1) more q.store tidy
      { rest with events := .communication q.chan :: q.process.simplifyEvents q.store.label
          ++ .reduced (q.store.calculi tidy) (taken + 1) :: rest.events }

def reduce (s : Store) (p : Process Name) (maxSteps : Nat) : Reduction :=
  reduceFrom 0 maxSteps s p

end Store

end PiCalculus
