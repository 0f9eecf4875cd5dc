import PiCalculus.Process.Basic
import PiCalculus.Store.Write

/-! Telling variables from names, by where they stand or by how they are spelled. -/

namespace PiCalculus

/-- The names that the nodes show to be variables, where some names are classified already. Input
variables always are, and a sent value is unless it has been classified before. -/
def Process.variablesAmong : List Name → List (Process Name) → List Name
  | _, [] => []
  | known, receive _ vars _ :: ps => vars ++ variablesAmong (vars ++ known) ps
  | known, send _ values :: ps =>
    values.filter (!known.contains ·) ++ variablesAmong (values ++ known) ps
  | known, restrict name _ :: ps => variablesAmong (name :: known) ps
  | known, _ :: ps => variablesAmong known ps

/-- The names that the process shows to be variables, met breadth-first. -/
def Process.variables (p : Process Name) : List Name := variablesAmong [] p.breadthFirst

/-- Whether a label begins like that of a variable, with a letter from `n` to `z`. -/
def isVariableLabel (label : String) : Bool :=
  match label.toList with
  | c :: _ => decide ('n' ≤ c ∧ c ≤ 'z')
  | [] => false

namespace Store

/-- Makes variables of the names that the process shows to be variables. -/
def identifySorts (s : Store) (p : Process Name) : Written :=
  s.writeEach (fun s n => s.setSort n .var) p.variables

/-- Makes variables of the names that are spelled so, except of constant ones. -/
def inferSortsBySpelling (s : Store) (p : Process Name) : Written :=
  s.writeEach
    (fun s n =>
      if !s.isConstant n && isVariableLabel (s.label n) then s.setSort n .var else ⟨s, none⟩)
    p.walk

/-- Makes names of all but the constant ones. -/
def resetSorts (s : Store) (p : Process Name) : Written :=
  s.writeEach (fun s n => if s.isConstant n then ⟨s, none⟩ else s.setSort n .name) p.walk

end Store

end PiCalculus
