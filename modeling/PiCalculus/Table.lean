import PiCalculus.Process.Load
import PiCalculus.Store.Write

/-! Names that are announced by a list, and types that point into a list of names. -/

namespace PiCalculus

/-- Where a reference points: to a name of a list, to another one that is alive, or nowhere. -/
inductive Target
  | listed (index : Nat)
  | outside (label : String)
  | dropped

/-- A name with its type pointing into a list of names. -/
structure Listed where
  label : String
  sort : NameSort
  type : Ty Target
  hint : Option String
  constant : Bool
  span : Option Span

/-- A name to be made, and the sort and the type that it is given then. References in types are
places in the list of the declarations. -/
structure Declaration where
  label : String
  constant : Bool
  hint : Option String
  span : Option Span
  sort : Option NameSort
  type : Option (Ty Nat)

/-- The entry that a declared name starts with. A constant name has no hint. -/
def Declaration.entry (d : Declaration) : Entry :=
  let e := match d.constant, d.hint with
    | true, _ => Entry.fixed d.label
    | false, some hint => Entry.hinted d.label hint
    | false, none => Entry.ordinary d.label
  match d.span with
  | some span => e.located span
  | none => e

/-- A type whose references are places in a list of names, if they all are. -/
def Ty.resolve? (names : List Name) (t : Ty Nat) : Option (Ty Name) :=
  if t.references.all (· < names.length) then some (t.map fun i => names.getD i default) else none

namespace Store

def locate (s : Store) (names : List Name) (n : Name) : Target :=
  match s.get? n, names.idxOf? n with
  | none, _ => .dropped
  | some _, some i => .listed i
  | some e, none => .outside e.label

def list (s : Store) (names : List Name) : List Listed :=
  names.map fun n =>
    ⟨s.label n, s.sort n, (s.type n).map (s.locate names), s.hint n, s.isConstant n, s.span n⟩

def addAll (s : Store) : List Entry → List Name × Store
  | [] => ([], s)
  | e :: es =>
    let (n, s) := s.add e
    let (ns, s) := s.addAll es
    (n :: ns, s)

end Store

inductive DeclarationFault
  | noSuchName
  | failed (error : Error)

/-- Gives declared names their sorts and types in turn. -/
def Declaration.settle (names : List Name) (s : Store) :
    List (Name × Declaration) → Except DeclarationFault Store
  | [] => .ok s
  | (n, d) :: rest => do
    let s ← match d.sort with
      | none => .ok s
      | some sort => ofWritten (s.setSort n sort)
    let s ← match d.type with
      | none => .ok s
      | some type =>
        match type.resolve? names with
        | none => .error .noSuchName
        | some type => ofWritten (s.setType n type)
    settle names s rest
where
  ofWritten : Written → Except DeclarationFault Store
    | ⟨s, none⟩ => .ok s
    | ⟨_, some e⟩ => .error (.failed e)

/-- A store with the declared names, and these in order. -/
def Declaration.declare (declarations : List Declaration) :
    Except DeclarationFault (List Name × Store) := do
  let (names, s) := Store.empty.addAll (declarations.map entry)
  return (names, ← settle names s (names.zip declarations))

end PiCalculus
