import PiCalculus.Store.Basic

/-! Following references. A type that is a reference leads to the type of its target, which may be a
reference again. Such a chain ends at a type that is no reference, at a dropped name, or nowhere. -/

namespace PiCalculus

/-- The names that a chain of references passes, and the type at its end. There is none if the last
name is dropped or the chain comes back to a name. -/
structure Chain where
  names : List Name
  last : Option (Ty Name)
deriving Inhabited

namespace Store

/-- The chain from a type on, cut after so many names. -/
def chainWithin (s : Store) : Nat → Ty Name → Chain
  | k + 1, .reference n =>
    match s.get? n with
    | none => ⟨[n], none⟩
    | some e =>
      let next := s.chainWithin k e.type
      ⟨n :: next.names, next.last⟩
  | 0, .reference _ => ⟨[], none⟩
  | _, t => ⟨[], some t⟩

/-- The chain from a type on. One that passes as many names as there are and goes on comes back to
one of them. -/
def chain (s : Store) (t : Ty Name) : Chain := s.chainWithin s.size t

/-- The type at the end of the chain, or that of an unknown if there is none. -/
def deref (s : Store) (t : Ty Name) : Ty Name := (s.chain t).last.getD .untyped

/-- The name that has the type at the end of the chain. -/
def terminal? (s : Store) (t : Ty Name) : Option Name :=
  let chain := s.chain t
  chain.last.bind fun _ => chain.names.getLast?

/-- Whether the chain passes a name. -/
def refersTo (s : Store) (t : Ty Name) (n : Name) : Bool := (s.chain t).names.contains n

end Store

end PiCalculus
