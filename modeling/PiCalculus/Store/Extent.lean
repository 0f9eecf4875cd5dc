import PiCalculus.Store.Unfolding

/-! Whether a type stands for a small tree. Types that share their references can stand for a tree
that is too large to be made, so its constructors are paid for one by one out of a supply. The
supply suffices if and only if the tree has no more constructors, and a larger tree has a longer
text. -/

namespace PiCalculus

namespace Ty

variable {ρ σ : Type}

/-- What is left of a supply after one is taken for every constructor, and for every reference what
its price takes. -/
def pay (price : ρ → Nat → Option Nat) : Ty ρ → Nat → Option Nat
  | reference n, supply => price n supply
  | _, 0 => none
  | untyped, left + 1 | base _, left + 1 => some left
  | chan t, left + 1 => t.pay price left
  | composite ts, left + 1 => ts.foldlM (fun left t => t.pay price left) left
termination_by t => sizeOf t

theorem pay_bind (f : ρ → Ty σ) (price : σ → Nat → Option Nat) (t : Ty ρ) (supply : Nat) :
    (t.bind f).pay price supply = t.pay (fun n => (f n).pay price) supply := by
  fun_induction pay (fun n => (f n).pay price) t supply with
  | case1 => rw [bind]
  | case2 t => cases t <;> simp_all [bind, pay]
  | case3 => simp [bind, pay]
  | case4 => simp [bind, pay]
  | case5 t left ih => simpa [bind, pay] using ih
  | case6 ts left ih =>
    rw [bind, pay, List.foldlM_map]
    induction ts generalizing left with
    | nil => rfl
    | cons t ts more =>
      rw [List.foldlM_cons, List.foldlM_cons, ih left t (List.mem_cons_self ..)]
      exact congrArg _ (funext fun left => more left fun left t mem =>
        ih left t (List.mem_cons_of_mem _ mem))

theorem foldr_size_pos (ts : List (Ty ρ)) : 0 < (ts.map size).foldr (· + ·) 1 := by
  induction ts with
  | nil => simp
  | cons t ts ih => exact Nat.lt_of_lt_of_le ih (Nat.le_add_left ..)

theorem size_pos (t : Ty ρ) : 0 < t.size := by
  cases t <;> simp [size, foldr_size_pos]

end Ty

/-- A tree is paid for by as much as its size. -/
theorem Shape.pay_eq (t : Shape) (supply : Nat) :
    t.pay Empty.elim supply = if t.size ≤ supply then some (supply - t.size) else none := by
  fun_induction Ty.pay Empty.elim t supply with
  | case1 n => exact n.elim
  | case2 t => rw [if_neg (Nat.not_le.2 t.size_pos)]
  | case3 => simp [Ty.size]
  | case4 => simp [Ty.size]
  | case5 t left ih =>
    simp only [Ty.size, ih, Nat.succ_eq_add_one, Nat.add_le_add_iff_right, Nat.add_sub_add_right]
  | case6 ts left ih =>
    rw [Ty.size]
    induction ts generalizing left with
    | nil => simp
    | cons t ts more =>
      have size := Ty.foldr_size_pos ts
      rw [List.foldlM_cons, ih left t (List.mem_cons_self ..), List.map_cons, List.foldr_cons]
      split
      · refine (more _ fun left t mem => ih left t (List.mem_cons_of_mem _ mem)).trans ?_
        generalize (ts.map Ty.size).foldr (· + ·) 1 = rest at size
        split <;> split <;> simp only [reduceCtorEq, Option.some.injEq] <;> omega
      · rw [if_neg (by omega)]
        rfl

/-- Text that is joined is no shorter than its parts. -/
theorem utf8ByteSize_intercalate_cons (between first : String) (rest : List String) :
    first.utf8ByteSize + (between.intercalate rest).utf8ByteSize
      ≤ (between.intercalate (first :: rest)).utf8ByteSize := by
  cases rest with
  | nil => simp
  | cons => rw [String.intercalate_cons_cons]; simp only [String.utf8ByteSize_append]; omega

theorem Shape.foldr_size_le (ts : List Shape) (field : Nat → String → String)
    (longer : ∀ i text, text.utf8ByteSize < (field i text).utf8ByteSize)
    (size_le : ∀ t ∈ ts, t.size ≤ t.render.utf8ByteSize + 1) :
    (ts.map Ty.size).foldr (· + ·) 1
      ≤ (";".intercalate ((ts.map Ty.render).mapIdx field)).utf8ByteSize + 1 := by
  induction ts generalizing field with
  | nil => simp
  | cons t ts ih =>
    have rest := ih (fun i => field (i + 1)) (fun i => longer (i + 1))
      fun t mem => size_le t (List.mem_cons_of_mem _ mem)
    have first := size_le t (List.mem_cons_self ..)
    have longer := longer 0 t.render
    have := utf8ByteSize_intercalate_cons ";" (field 0 t.render)
      ((ts.map Ty.render).mapIdx fun i => field (i + 1))
    simp only [List.map_cons, List.foldr_cons, List.mapIdx_cons]
    omega

/-- Only a base type can have fewer bytes than constructors. -/
theorem Shape.size_le_utf8ByteSize_render (t : Shape) :
    t.size ≤ t.render.utf8ByteSize + 1 := by
  fun_induction Ty.render t with
  | case1 => simp [Ty.size]
  | case2 => simp [Ty.size]
  | case3 t ih =>
    have : "chan ".utf8ByteSize = 5 := rfl
    simp only [Ty.size, String.utf8ByteSize_append]
    omega
  | case4 ts ih =>
    have := foldr_size_le ts (fun i text => "e" ++ toString i ++ " " ++ text)
      (fun i text => by
        have : " ".utf8ByteSize = 1 := rfl
        simp only [String.utf8ByteSize_append]
        omega) ih
    simp only [Ty.size, String.utf8ByteSize_append]
    omega

namespace Store

/-- What is left of a supply after the tree of a type is paid for. -/
def payWithin (s : Store) : Nat → List Name → Ty Name → Nat → Option Nat
  | 0, _, t => t.pay fun _ => Ty.pay Empty.elim .untyped
  | k + 1, above, t => t.pay fun n =>
    match s.next above n with
    | none => Ty.pay Empty.elim .untyped
    | some u => s.payWithin k (n :: above) u

/-- Whether the tree that a type stands for has at most so many constructors. -/
def isWithin (s : Store) (bound : Nat) (t : Ty Name) : Bool :=
  (s.payWithin s.size [] t bound).isSome

theorem payWithin_eq (s : Store) (k : Nat) (above : List Name) (t : Ty Name) :
    s.payWithin k above t = (s.unfoldWithin k above t).pay Empty.elim := by
  induction k generalizing above t with
  | zero => funext supply; rw [payWithin, unfoldWithin, Ty.pay_bind]
  | succ k ih =>
    funext supply
    rw [payWithin, unfoldWithin, Ty.pay_bind]
    congr 1
    funext n
    cases s.next above n <;> simp [ih]

theorem isWithin_iff (s : Store) (bound : Nat) (t : Ty Name) :
    s.isWithin bound t ↔ (s.unfold t).size ≤ bound := by
  rw [isWithin, payWithin_eq, ← unfold, Shape.pay_eq]
  split <;> simp_all

/-- A type that is written in less than so many bytes is within that bound. -/
theorem isWithin_of_renderType (s : Store) (bound : Nat) (t : Ty Name)
    (fits : (s.renderType t).utf8ByteSize < bound) : s.isWithin bound t := by
  have := Shape.size_le_utf8ByteSize_render (s.unfold t)
  rw [isWithin_iff]
  rw [renderType] at fits
  omega

end Store

end PiCalculus
