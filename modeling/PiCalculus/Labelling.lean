import PiCalculus.Process.Basic
import PiCalculus.Store.Write

/-! Giving names other labels: all different ones, or those of values put for variables. -/

namespace PiCalculus

/-- Gives the names of a process different labels, numbered in the order of the walk. -/
def Store.makeUnique (s : Store) (p : Process Name) : Written :=
  s.writeEach (fun s (n, i) => s.setLabel n (s.label n ++ "_" ++ toString i))
    p.walk.eraseDups.zipIdx

/-- Relabels names other than constant ones, all at once. -/
def Store.relabel (s : Store) (names : List Name) (newLabel : String → String) : Store :=
  names.foldl
    (fun t n =>
      if s.isConstant n then t else t.modify n fun e => { e with label := newLabel (s.label n) })
    s

/-- The names that stand in sends and receives. -/
def Process.prefixNames {ν : Type} : Process ν → List ν
  | nil => []
  | send chan values => chan :: values
  | receive chan vars body => chan :: (vars ++ body.prefixNames)
  | par ps => ps.flatMap prefixNames
  | replicate body | restrict _ body => body.prefixNames
termination_by p => sizeOf p

/-- The label of the value that is put for the first variable of a label, or the label as it is. -/
def substitution (vars values : List String) (label : String) : String :=
  ((vars.zip values).lookup label).getD label

/-- Puts values for variables by relabelling the names that stand in sends and receives. -/
def Store.substitute (s : Store) (p : Process Name) (vars values : List String) : Written :=
  if values.length = vars.length then
    ⟨s.relabel p.prefixNames (substitution vars values), none⟩
  else ⟨s, some (.unevenSubstitution values.length vars.length)⟩

end PiCalculus
