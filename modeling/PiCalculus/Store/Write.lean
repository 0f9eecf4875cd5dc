import PiCalculus.Error
import PiCalculus.Store.Basic

/-! Writing to names. A pass that fails leaves behind what it wrote before. -/

namespace PiCalculus

/-- What a pass leaves behind: the store as far as it came, and why it stopped there if it did. -/
structure Written where
  store : Store
  failure : Option Error

/-- Whether the pass came to its end. -/
def Written.result (w : Written) : Except Error Unit :=
  match w.failure with
  | none => .ok ()
  | some e => .error e

namespace Store

/-- Changes the entry of a name that is not constant. -/
def write (s : Store) (n : Name) (f : Entry → Entry) : Written :=
  if s.isConstant n then ⟨s, some (.immutableName (s.label n))⟩ else ⟨s.modify n f, none⟩

def setLabel (s : Store) (n : Name) (label : String) : Written :=
  s.write n fun e => { e with label }

def setSort (s : Store) (n : Name) (sort : NameSort) : Written :=
  s.write n fun e => { e with sort }

def setType (s : Store) (n : Name) (type : Ty Name) : Written :=
  s.write n fun e => { e with type }

/-- Lets each item write in turn until one fails. -/
def writeEach {α : Type} (write : Store → α → Written) : Store → List α → Written
  | s, [] => ⟨s, none⟩
  | s, a :: as =>
    match write s a with
    | ⟨t, none⟩ => writeEach write t as
    | stopped => stopped

end Store

end PiCalculus
