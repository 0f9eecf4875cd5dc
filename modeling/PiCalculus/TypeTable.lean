import PiCalculus.Store.Chain
import PiCalculus.Store.Equality
import PiCalculus.Table
import PiCalculus.Ty.Inspect

/-! Questions about types over a table of names. The table may let go of names, which the types that
point at them then lose. -/

namespace PiCalculus

structure TypeTable where
  store : Store
  names : List Name

namespace TypeTable

/-- A type as it is written, or the type that a name of the table has. -/
inductive Argument
  | written (type : Ty Nat)
  | ofName (index : Nat)

/-- What can be asked of types and names. Names are given by their places in the table. -/
inductive Question
  | display (t : Argument)
  | inspect (t : Argument)
  | stored (t : Argument)
  | deref (t : Argument)
  | terminal (t : Argument)
  | arity (t : Argument)
  | elements (t : Argument)
  | isUntyped (t : Argument)
  | equal (t u : Argument)
  | refersTo (t : Argument) (name : Nat)
  | reference (name : Nat)
  | name (name : Nat)

inductive Change
  | label (label : String)
  /-- There may be no sort of the name that was given. -/
  | sort (sort : Option NameSort)
  | type (t : Argument)

inductive Request
  | ask (question : Question)
  | write (name : Nat) (change : Change)
  | drop (name : Nat)

inductive Fault
  | noSuchName
  | noSuchSort
  | failed (error : Error)

inductive Answer
  | done
  | flag (value : Bool)
  | count (value : Nat)
  | index (value : Option Nat)
  | text (value : String)
  | texts (values : List String)
  | type (value : Ty Target)
  | types (values : List (Ty Target))

/-- The name at a place, if it is not dropped. -/
def find (t : TypeTable) (i : Nat) : Except Fault Name :=
  match t.names[i]? with
  | some n => if t.store.isLive n then .ok n else .error .noSuchName
  | none => .error .noSuchName

/-- The type that is meant. One that is written may point at a dropped name. -/
def resolve (t : TypeTable) : Argument → Except Fault (Ty Name)
  | .written type =>
    match type.resolve? t.names with
    | some type => .ok type
    | none => .error .noSuchName
  | .ofName i => return t.store.type (← t.find i)

/-- How the target of a reference is named. -/
def targetText (s : Store) (n : Name) : String :=
  match s.get? n with
  | some e => e.label
  | none => "<dropped>"

def locate (t : TypeTable) (type : Ty Name) : Ty Target := type.map (t.store.locate t.names)

def ask (t : TypeTable) (question : Question) : Except Fault Answer := do
  let s := t.store
  match question with
  | .display a => return .text (s.renderType (← t.resolve a))
  | .inspect a => return .text ((← t.resolve a).inspect (targetText s))
  | .stored a => return .type (t.locate (← t.resolve a))
  | .deref a => return .type (t.locate (s.deref (← t.resolve a)))
  | .terminal a => return .index ((s.terminal? (← t.resolve a)).bind fun n => t.names.idxOf? n)
  | .arity a => return .count (← t.resolve a).arity
  | .elements a => return .types ((← t.resolve a).elements.map t.locate)
  | .isUntyped a => return .flag (← t.resolve a).isUntyped
  | .equal a b => do
    let type ← t.resolve a
    return .flag (s.equal type (← t.resolve b))
  | .refersTo a i => do
    let type ← t.resolve a
    return .flag (s.refersTo type (← t.find i))
  | .reference i => return .type (t.locate (.reference (← t.find i)))
  | .name i => do
    let display := s.renderName (← t.find i)
    return .texts [display, "Name(" ++ display ++ ")"]

def change (t : TypeTable) (n : Name) : Change → Except Fault Written
  | .label label => .ok (t.store.setLabel n label)
  | .sort none => .error .noSuchSort
  | .sort (some sort) => .ok (t.store.setSort n sort)
  | .type a => return t.store.setType n (← t.resolve a)

def perform (t : TypeTable) : Request → TypeTable × Except Fault Answer
  | .ask question => (t, t.ask question)
  | .write i change =>
    match t.find i >>= (t.change · change) with
    | .error fault => (t, .error fault)
    | .ok w =>
      ({ t with store := w.store }, (w.result.map fun _ => .done).mapError .failed)
  | .drop i =>
    match t.names[i]? with
    | some n => ({ t with store := t.store.drop n }, .ok .done)
    | none => (t, .error .noSuchName)

end TypeTable

end PiCalculus
