import PiCalculus.Store.Chain

/-! When two types agree. References are followed on both sides, and two names that are already
being compared are taken to agree, so types that refer to themselves in step can be compared. -/

namespace PiCalculus.Store

/-- Compares two types down to some depth, below which they count as equal. `assumed` are the pairs
of names that are being compared further up. -/
def equalWithin (s : Store) : Nat → List (Name × Name) → Ty Name → Ty Name → Bool
  | 0, _, _, _ => true
  | k + 1, assumed, .reference a, .reference b =>
    if a = b ∨ (a, b) ∈ assumed then true
    else s.equalWithin k ((a, b) :: assumed) (s.deref (.reference a)) (s.deref (.reference b))
  | k + 1, assumed, t, u =>
    match s.deref t, s.deref u with
    | .untyped, .untyped => true
    | .base a, .base b => a == b
    | .chan t, .chan u => s.equalWithin k assumed t u
    | .composite ts, .composite us =>
      ts.length == us.length
        && (ts.zip us).all fun (t, u) => s.equalWithin k assumed t u
    | _, _ => false

/-- The number of constructors in all the types of the store. -/
def weight (s : Store) : Nat :=
  (s.entries.toList.map fun e => (e.map (·.type.size)).getD 0).foldr (· + ·) 0

/-- A depth that no comparison passes without meeting twice the same parts under the same
assumptions. -/
def comparisonDepth (s : Store) (t u : Ty Name) : Nat :=
  let pairs := fun n : Nat => n * n
  pairs (s.size + 1) * pairs (s.weight + t.size + u.size + 1)

/-- Whether two types agree as their references now stand. -/
def equal (s : Store) (t u : Ty Name) : Bool := s.equalWithin (s.comparisonDepth t u) [] t u

end PiCalculus.Store
