import PiCalculus.Process.Calculi
import PiCalculus.Store.Unfolding
import PiCalculus.Text.Parser

/-! Processes over the names of a store. -/

namespace PiCalculus

/-- A name as it is announced where it is written. -/
def Occurrence.entry (o : Occurrence) : Entry :=
  let e := match o.hint with
    | none => Entry.ordinary o.label
    | some hint => Entry.hinted o.label hint
  e.located o.span

namespace Store

/-- Makes a new name of every occurrence. -/
def load (s : Store) (p : Process Occurrence) : Process Name × Store :=
  (p.mapM (m := StateM Store) fun (o : Occurrence) (s : Store) => s.add o.entry).run s

/-- The process as it is written in the calculus, by the labels of its names. -/
def calculi (s : Store) (p : Process Name) : String := (p.map s.label).render

/-- The process as a tree, with the sorts and types of its names. -/
def pretty (s : Store) (level : Nat) (p : Process Name) : String :=
  (p.map s.renderName).pretty level

/-- The process by its constructors, with the sorts and types of its names. -/
def inspect (s : Store) (p : Process Name) : String := (p.map s.renderName).inspect

end Store

namespace Process

/-- The different names of a process in the order of their first occurrences. -/
def names (p : Process Name) : List Name := p.occurrences.eraseDups

/-- The number of each occurrence's name in that order. -/
def ids (p : Process Name) : List Nat :=
  let names := p.names
  p.occurrences.map fun n => names.idxOf n

end Process

end PiCalculus
