/-! The types of names. A type may point at names, of which it then means the types that they have
at the time; without such pointers it is a finite tree and has a text. -/

namespace PiCalculus

/-- A type that may point at targets of the type `ρ`. -/
inductive Ty (ρ : Type) where
  | untyped
  | base (label : String)
  | chan (element : Ty ρ)
  | composite (elements : List (Ty ρ))
  | reference (target : ρ)
deriving Inhabited

/-- A type that points nowhere. -/
abbrev Shape := Ty Empty

namespace Ty

variable {ρ σ : Type}

def isUntyped : Ty ρ → Bool
  | untyped => true
  | _ => false

/-- How many values a channel with this element type carries. -/
def arity : Ty ρ → Nat
  | composite ts => ts.length
  | _ => 1

/-- The types of the values that a channel with this element type carries. -/
def elements : Ty ρ → List (Ty ρ)
  | composite ts => ts
  | t => [t]

/-- Puts a type in place of every reference. -/
def bind (f : ρ → Ty σ) : Ty ρ → Ty σ
  | untyped => untyped
  | base label => base label
  | chan t => chan (t.bind f)
  | composite ts => composite (ts.map (bind f))
  | reference n => f n
termination_by t => sizeOf t

def map (f : ρ → σ) (t : Ty ρ) : Ty σ := t.bind fun n => reference (f n)

/-- The targets in the order in which they stand in the type. -/
def references : Ty ρ → List ρ
  | untyped | base _ => []
  | chan t => t.references
  | composite ts => ts.flatMap references
  | reference n => [n]
termination_by t => sizeOf t

def size : Ty ρ → Nat
  | untyped | base _ | reference _ => 1
  | chan t => t.size + 1
  | composite ts => (ts.map size).foldr (· + ·) 1
termination_by t => sizeOf t

/-- The text of a type: that of a Go type whose structures have the fields `e0`, `e1` and so on. -/
def render : Shape → String
  | untyped => "interface\x7b\x7d"
  | base label => label
  | chan t => "chan " ++ t.render
  | composite ts =>
    let fields := (ts.map render).mapIdx fun i t => "e" ++ toString i ++ " " ++ t
    "struct\x7b" ++ ";".intercalate fields ++ "\x7d"
termination_by t => sizeOf t

end Ty

end PiCalculus
