import PiCalculus.Text.Point
import PiCalculus.Ty.Basic

/-! What is known of the names that are alive. A name is an identity, so all its occurrences see
what a pass writes to it, and a type that points at it follows what it becomes. -/

namespace PiCalculus

/-- The identity of a name. Names with equal labels are different names. -/
structure Name where
  id : Nat
deriving DecidableEq, Inhabited

/-- A name stands for a channel or value, or it is a variable. -/
inductive NameSort
  | name | var
deriving DecidableEq, Inhabited

structure Entry where
  label : String
  sort : NameSort
  type : Ty Name
  hint : Option String
  /-- A constant name can be neither relabelled nor given another sort or type. -/
  constant : Bool
  /-- Where the name was written, if it was. -/
  span : Option Span
deriving Inhabited

namespace Entry

def ordinary (label : String) : Entry := ⟨label, .name, .untyped, none, false, none⟩

/-- A name that is announced to have a base type. -/
def hinted (label hint : String) : Entry := ⟨label, .name, .base hint, some hint, false, none⟩

def fixed (label : String) : Entry := { ordinary label with constant := true }

def located (e : Entry) (span : Span) : Entry := { e with span := some span }

end Entry

/-- The entries of the names by their identities. A name without one is dropped, or there never
was such a name. -/
structure Store where
  entries : Array (Option Entry)

namespace Store

def empty : Store := ⟨#[]⟩

/-- The number of names that there ever were. -/
def size (s : Store) : Nat := s.entries.size

def get? (s : Store) (n : Name) : Option Entry := s.entries[n.id]?.join

def isLive (s : Store) (n : Name) : Bool := (s.get? n).isSome

def add (s : Store) (e : Entry) : Name × Store := (⟨s.size⟩, ⟨s.entries.push (some e)⟩)

/-- Changes the entry of a name, if it is alive. -/
def modify (s : Store) (n : Name) (f : Entry → Entry) : Store :=
  ⟨s.entries.modify n.id (·.map f)⟩

/-- Drops a name. What points at it stays as it is. -/
def drop (s : Store) (n : Name) : Store := ⟨s.entries.modify n.id fun _ => none⟩

def retain (s : Store) (owned : List Name) : Store :=
  ⟨s.entries.mapIdx fun i e => if owned.contains ⟨i⟩ then e else none⟩

def label (s : Store) (n : Name) : String := ((s.get? n).map (·.label)).getD ""

def sort (s : Store) (n : Name) : NameSort := ((s.get? n).map (·.sort)).getD .name

def type (s : Store) (n : Name) : Ty Name := ((s.get? n).map (·.type)).getD .untyped

def hint (s : Store) (n : Name) : Option String := (s.get? n).bind (·.hint)

def isConstant (s : Store) (n : Name) : Bool := ((s.get? n).map (·.constant)).getD false

def span (s : Store) (n : Name) : Option Span := (s.get? n).bind (·.span)

theorem get?_add (s : Store) (e : Entry) (n : Name) :
    (s.add e).2.get? n = if n = (s.add e).1 then some e else s.get? n := by
  obtain ⟨i⟩ := n
  simp only [add, get?, size, Array.getElem?_push, Name.mk.injEq]
  split <;> rfl

theorem get?_modify (s : Store) (n m : Name) (f : Entry → Entry) :
    (s.modify n f).get? m = if m = n then (s.get? m).map f else s.get? m := by
  obtain ⟨i⟩ := n
  obtain ⟨j⟩ := m
  simp only [modify, get?, Array.getElem?_modify, Name.mk.injEq, eq_comm (a := j)]
  split
  · cases s.entries[j]? <;> rfl
  · rfl

theorem get?_retain (s : Store) (owned : List Name) (n : Name) :
    (s.retain owned).get? n = if n ∈ owned then s.get? n else none := by
  obtain ⟨i⟩ := n
  simp only [retain, get?, Array.getElem?_mapIdx, List.contains_iff_mem]
  cases s.entries[i]? with
  | none => simp
  | some e => split <;> simp_all

end Store

end PiCalculus
