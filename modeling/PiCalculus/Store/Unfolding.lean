import PiCalculus.Store.Basic

/-! The finite tree that a type stands for: its references are followed wherever they stand, but
never a second time on the way down to them. -/

namespace PiCalculus.Store

/-- The type to go on with at a reference below the given names, unless it comes back to one of them
or its target is dropped. -/
def next (s : Store) (above : List Name) (n : Name) : Option (Ty Name) :=
  if above.contains n then none else (s.get? n).map (·.type)

/-- Follows at most so many references on each way down, and none of the names above. -/
def unfoldWithin (s : Store) : Nat → List Name → Ty Name → Shape
  | 0, _, t => t.bind fun _ => .untyped
  | k + 1, above, t => t.bind fun n =>
    match s.next above n with
    | none => .untyped
    | some u => s.unfoldWithin k (n :: above) u

/-- A type with its references followed; a way down passes each name at most once. -/
def unfold (s : Store) (t : Ty Name) : Shape := s.unfoldWithin s.size [] t

/-- The text of a type as its references now stand. -/
def renderType (s : Store) (t : Ty Name) : String := (s.unfold t).render

/-- A name with its sort and its type, unless that is unknown. -/
def renderName (s : Store) (n : Name) : String :=
  let mark := match s.sort n with | .name => "" | .var => "_"
  let type := if (s.type n).isUntyped then "" else ":" ++ s.renderType (s.type n)
  mark ++ s.label n ++ type

end PiCalculus.Store
