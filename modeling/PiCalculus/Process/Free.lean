import PiCalculus.Process.Basic
import PiCalculus.Store.Basic

/-! The free names and variables of a process, by the sorts of its names. They are listed by label,
each label once. -/

namespace PiCalculus.Process

/-- Puts a name into a list that ascends by label, for the name of its label there if any. -/
def insertByLabel {ν : Type} (label : ν → String) (n : ν) : List ν → List ν
  | [] => [n]
  | m :: ms =>
    if label n < label m then n :: m :: ms
    else if label n = label m then n :: ms
    else m :: insertByLabel label n ms

/-- The names ascending by label; of those with one label the first. -/
def byLabel {ν : Type} (label : ν → String) (names : List ν) : List ν :=
  names.foldr (insertByLabel label) []

variable (s : Store)

def ofSort (sort : NameSort) (names : List Name) : List Name :=
  names.filter fun n => s.sort n = sort

/-- The names of the sort of names that no restriction around them takes away. -/
def freeNames : Process Name → List Name
  | nil => []
  | send chan values => byLabel s.label (ofSort s .name (chan :: values))
  | receive chan _ body => byLabel s.label (ofSort s .name [chan] ++ body.freeNames)
  | par ps => byLabel s.label (ps.flatMap freeNames)
  | replicate body => body.freeNames
  | restrict name body =>
    (byLabel s.label body.freeNames).eraseP fun n => s.label n = s.label name
termination_by p => sizeOf p

/-- The variables that no receive around them takes away. -/
def freeVars : Process Name → List Name
  | nil => []
  | send chan values => byLabel s.label (ofSort s .var (chan :: values))
  | receive chan vars body =>
    let bound := vars.map s.label
    byLabel s.label
      ((body.freeVars.filter fun n => !bound.contains (s.label n)) ++ ofSort s .var [chan])
  | par ps => byLabel s.label (ps.flatMap freeVars)
  | replicate body => body.freeVars
  | restrict _ body => body.freeVars
termination_by p => sizeOf p

end PiCalculus.Process
