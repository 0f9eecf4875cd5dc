import Mathlib
import PiCalculus.Proofs.Store.References
import PiCalculus.Store.Equality

/-! When types stand for the same tree, which may be infinite where references lead back to
themselves. The trees are compared down to every depth. A comparison by the store finds out about
a difference at some depth within twice as many steps, since the pairs that it takes to agree do
agree down to there; and trees that differ do so above a depth that the number of types in the
store bounds. So the store's comparison decides agreement. -/

namespace PiCalculus

namespace Ty

variable {ρ σ : Type}

/-- The types directly below the root. -/
def children : Ty ρ → List (Ty ρ)
  | chan t => [t]
  | composite ts => ts
  | _ => []

/-- Types have one root and their children are related one by one. -/
inductive Alike (r : Ty ρ → Ty ρ → Prop) : Ty ρ → Ty ρ → Prop
  | untyped : Alike r untyped untyped
  | base (label : String) : Alike r (base label) (base label)
  | chan {t u : Ty ρ} (h : r t u) : Alike r (chan t) (chan u)
  | composite {ts us : List (Ty ρ)} (h : List.Forall₂ r ts us) :
      Alike r (composite ts) (composite us)

namespace Alike

variable {r r' : Ty ρ → Ty ρ → Prop} {t u : Ty ρ}

theorem imp_of_mem (h : Alike r t u) (himp : ∀ x ∈ t.children, ∀ y ∈ u.children, r x y → r' x y) :
    Alike r' t u := by
  cases h with
  | untyped => exact .untyped
  | base label => exact .base label
  | chan h => exact .chan (himp _ (List.mem_singleton_self _) _ (List.mem_singleton_self _) h)
  | @composite ts us h =>
    refine .composite (List.forall₂_iff_get.mpr ⟨h.length_eq, fun i hi hj => ?_⟩)
    exact himp _ (List.get_mem ts _) _ (List.get_mem us _) (h.get hi hj)

theorem imp (h : Alike r t u) (himp : ∀ x y, r x y → r' x y) : Alike r' t u :=
  h.imp_of_mem fun x _ y _ => himp x y

theorem and (h : Alike r t u) (h' : Alike r' t u) : Alike (fun x y => r x y ∧ r' x y) t u := by
  cases h with
  | untyped => exact .untyped
  | base label => exact .base label
  | chan h =>
    cases h' with
    | chan h' => exact .chan ⟨h, h'⟩
  | @composite ts us h =>
    cases h' with
    | composite h' =>
      refine .composite (List.forall₂_iff_get.mpr ⟨h.length_eq, fun i hi hj => ?_⟩)
      exact ⟨h.get hi hj, h'.get hi hj⟩

end Alike

/-- All types that stand in a type, itself among them. -/
@[grind =] def parts : Ty ρ → List (Ty ρ)
  | chan t => chan t :: t.parts
  | composite ts => composite ts :: ts.flatMap parts
  | t => [t]
termination_by t => sizeOf t

theorem mem_parts_self (t : Ty ρ) : t ∈ t.parts := by
  cases t <;> simp [parts]

theorem children_subset_parts {t u : Ty ρ} (h : u ∈ t.parts) : u.children ⊆ t.parts := by
  fun_induction parts t with
  | case1 t ih =>
    rcases List.mem_cons.mp h with rfl | h
    · exact fun x hx => by simp_all [children, mem_parts_self]
    · exact fun x hx => List.mem_cons_of_mem _ (ih h hx)
  | case2 ts ih =>
    rcases List.mem_cons.mp h with rfl | h
    · intro x hx
      exact List.mem_cons_of_mem _ (List.mem_flatMap.mpr ⟨x, hx, x.mem_parts_self⟩)
    · obtain ⟨t, ht, h⟩ := List.mem_flatMap.mp h
      exact fun x hx => List.mem_cons_of_mem _ (List.mem_flatMap.mpr ⟨t, ht, ih t ht h hx⟩)
  | case3 t _ _ =>
    obtain rfl : u = t := by simpa using h
    cases u <;> simp_all [children]

theorem length_parts (t : Ty ρ) : t.parts.length = t.size := by
  fun_induction parts t with
  | case1 t ih => rw [List.length_cons, ih, size]
  | case2 ts ih =>
    rw [List.length_cons, List.length_flatMap, List.map_congr_left ih, size]
    induction ts with
    | nil => rfl
    | cons t ts more =>
      have hts := more fun u hu => ih u (List.mem_cons_of_mem _ hu)
      rw [List.map_cons, List.sum_cons, List.foldr_cons, Nat.add_assoc, hts]
  | case3 t _ _ => cases t <;> simp_all [size]

end Ty

namespace Store

open Ty

variable {s : Store} {t u : Ty Name}

/-- The tree that a type stands for, down to some depth. -/
def outline (s : Store) : Nat → Ty Name → Shape
  | 0, _ => .untyped
  | k + 1, t =>
    match s.deref t with
    | .base label => .base label
    | .chan u => .chan (s.outline k u)
    | .composite us => .composite (us.map (s.outline k))
    | .untyped | .reference _ => .untyped

/-- Two types stand for the same tree. -/
def Agree (s : Store) (t u : Ty Name) : Prop := ∀ k, s.outline k t = s.outline k u

theorem outline_succ_eq_iff {k : Nat} :
    s.outline (k + 1) t = s.outline (k + 1) u ↔
      Alike (fun x y => s.outline k x = s.outline k y) (s.deref t) (s.deref u) := by
  have hmap : ∀ ts us : List (Ty Name), ts.map (s.outline k) = us.map (s.outline k) ↔
      List.Forall₂ (fun x y => s.outline k x = s.outline k y) ts us := by
    intro ts us
    rw [← List.forall₂_eq_eq_eq, List.forall₂_map_left_iff, List.forall₂_map_right_iff]
  rw [outline, outline]
  have ht := s.deref_ne_reference t
  have hu := s.deref_ne_reference u
  constructor
  · intro h
    generalize s.deref t = t at h ht
    generalize s.deref u = u at h hu
    -- At the end of the references no type is one, and types with different roots have no outline
    -- in common.
    cases t <;> cases u <;>
      first
      | exact absurd rfl (ht _)
      | exact absurd rfl (hu _)
      | cases h
      | skip
    · exact .untyped
    · exact .base _
    · exact .chan (Ty.chan.inj h)
    · exact .composite ((hmap _ _).mp (Ty.composite.inj h))
  · intro h
    generalize s.deref t = t at h
    generalize s.deref u = u at h
    cases h with
    | untyped => rfl
    | base label => rfl
    | chan h => exact congrArg Ty.chan h
    | composite h => exact congrArg Ty.composite ((hmap _ _).mpr h)

theorem outline_eq_of_deref_eq (h : s.deref t = s.deref u) (k : Nat) :
    s.outline k t = s.outline k u := by
  cases k with
  | zero => rfl
  | succ k => rw [outline, outline, h]

theorem outline_eq_of_succ {k : Nat} (h : s.outline (k + 1) t = s.outline (k + 1) u) :
    s.outline k t = s.outline k u := by
  induction k generalizing t u with
  | zero => rfl
  | succ k ih => exact outline_succ_eq_iff.mpr ((outline_succ_eq_iff.mp h).imp fun x y => ih)

theorem outline_eq_of_le {j k : Nat} (hjk : j ≤ k) (h : s.outline k t = s.outline k u) :
    s.outline j t = s.outline j u := by
  induction hjk with
  | refl => exact h
  | step _ ih => exact ih (outline_eq_of_succ h)

namespace Agree

theorem of_deref_eq (h : s.deref t = s.deref u) : s.Agree t u := outline_eq_of_deref_eq h

theorem refl (t : Ty Name) : s.Agree t t := fun _ => rfl

theorem symm (h : s.Agree t u) : s.Agree u t := fun k => (h k).symm

theorem trans {v : Ty Name} (h : s.Agree t u) (h' : s.Agree u v) : s.Agree t v :=
  fun k => (h k).trans (h' k)

theorem forall₂_iff {ts us : List (Ty Name)} :
    List.Forall₂ s.Agree ts us ↔
      ∀ k, List.Forall₂ (fun x y => s.outline k x = s.outline k y) ts us := by
  simp only [List.forall₂_iff_get, Agree]
  constructor
  · rintro ⟨hlen, h⟩ k
    exact ⟨hlen, fun i hi hj => h i hi hj k⟩
  · intro h
    exact ⟨(h 0).1, fun i hi hj k => (h k).2 i hi hj⟩

end Agree

/-- Types agree exactly if at the end of their references they have one root and agree below it. -/
theorem agree_iff : s.Agree t u ↔ Alike s.Agree (s.deref t) (s.deref u) := by
  constructor
  · intro h
    have hall := fun k => outline_succ_eq_iff.mp (h (k + 1))
    -- The root at the first depth is the one at all of them, so the children agree at every depth.
    have hroot := hall 0
    generalize s.deref t = t at hall hroot
    generalize s.deref u = u at hall hroot
    cases hroot with
    | untyped => exact .untyped
    | base label => exact .base label
    | chan =>
      refine .chan fun k => ?_
      cases hall k with
      | chan h => exact h
    | composite =>
      refine .composite (Agree.forall₂_iff.mpr fun k => ?_)
      cases hall k with
      | composite h => exact h
  · intro h k
    cases k with
    | zero => rfl
    | succ k => exact outline_succ_eq_iff.mpr (h.imp fun x y hxy => hxy k)

theorem Agree.deref_eq_untyped_iff (h : s.Agree t u) :
    s.deref t = .untyped ↔ s.deref u = .untyped := by
  have halike := agree_iff.mp h
  generalize s.deref t = t at halike ⊢
  generalize s.deref u = u at halike ⊢
  cases halike <;> simp

theorem Agree.deref_right (h : s.Agree t u) : s.Agree t (s.deref u) :=
  h.trans (.of_deref_eq (s.deref_deref u).symm)

theorem Agree.deref (h : s.Agree t u) : s.Agree (s.deref t) (s.deref u) :=
  h.deref_right.symm.deref_right.symm

attribute [grind =] equalWithin

theorem equalWithin_succ_iff {k : Nat} {assumed : List (Name × Name)}
    (h : ∀ a b, t = .reference a → u ≠ .reference b) :
    s.equalWithin (k + 1) assumed t u = true ↔
      Alike (fun x y => s.equalWithin k assumed x y = true) (s.deref t) (s.deref u) := by
  have ht := s.deref_ne_reference t
  have hu := s.deref_ne_reference u
  rw [equalWithin]
  · generalize s.deref t = t at ht
    generalize s.deref u = u at hu
    constructor
    · intro he
      split at he
      · exact .untyped
      · rw [beq_iff_eq] at he
        exact he ▸ .base _
      · exact .chan he
      · refine .composite (List.forall₂_iff_zip.mpr ?_)
        simpa using he
      · cases he
    · intro halike
      cases halike with
      | untyped => rfl
      | base label => simp
      | chan h => exact h
      | composite h =>
        have hzip := List.forall₂_iff_zip.mp h
        simpa using hzip
  · exact fun a b hta hub => h a b hta hub

theorem equalWithin_reference_iff {k : Nat} {assumed : List (Name × Name)} {a b : Name} :
    s.equalWithin (k + 1) assumed (.reference a) (.reference b) = true ↔
      a = b ∨ (a, b) ∈ assumed ∨ s.equalWithin k ((a, b) :: assumed) (s.deref (.reference a))
        (s.deref (.reference b)) = true := by
  rw [equalWithin]
  split <;> tauto

theorem Agree.equalWithin (h : s.Agree t u) (k : Nat) (assumed : List (Name × Name)) :
    s.equalWithin k assumed t u = true := by
  induction k generalizing assumed t u with
  | zero => simp [Store.equalWithin]
  | succ k ih =>
    by_cases hrefs : ∀ a b, t = .reference a → u ≠ .reference b
    · exact (equalWithin_succ_iff hrefs).mpr ((agree_iff.mp h).imp fun x y hxy => ih hxy assumed)
    · push Not at hrefs
      obtain ⟨a, b, rfl, rfl⟩ := hrefs
      exact equalWithin_reference_iff.mpr (.inr (.inr (ih h.deref _)))

/-- A comparison tells types apart that differ first at some depth, where the pairs that it takes to
agree do not differ yet. -/
theorem equalWithin_eq_false {j k : Nat} {assumed : List (Name × Name)} (hk : 2 * j ≤ k)
    (same : ∀ i < j, s.outline i t = s.outline i u) (differ : s.outline j t ≠ s.outline j u)
    (agreed : ∀ p ∈ assumed, s.outline j (.reference p.1) = s.outline j (.reference p.2)) :
    s.equalWithin k assumed t u = false := by
  induction j generalizing k assumed t u with
  | zero => exact absurd rfl differ
  | succ j ih =>
    -- Children that are not told apart do not differ at the depth that is left for them.
    have roots : ∀ {k assumed} {t u : Ty Name}, 2 * j ≤ k →
        (∀ i < j + 1, s.outline i t = s.outline i u) → s.outline (j + 1) t ≠ s.outline (j + 1) u →
        (∀ p ∈ assumed, s.outline j (.reference p.1) = s.outline j (.reference p.2)) →
        ¬ Alike (fun x y => s.equalWithin k assumed x y = true) (s.deref t) (s.deref u) := by
      intro k assumed t u hk same differ agreed hequal
      have hbelow : Alike (fun x y => ∀ i < j, s.outline i x = s.outline i y)
          (s.deref t) (s.deref u) := by
        cases j with
        | zero => exact hequal.imp fun x y _ i hi => absurd hi (Nat.not_lt_zero i)
        | succ j =>
          have hlast := outline_succ_eq_iff.mp (same (j + 1) (Nat.lt_succ_self _))
          exact hlast.imp fun x y hxy i hi => outline_eq_of_le (Nat.le_of_lt_succ hi) hxy
      refine differ (outline_succ_eq_iff.mpr ((hbelow.and hequal).imp fun x y hxy => ?_))
      by_contra hne
      have hfound := ih hk hxy.1 hne agreed
      rw [hxy.2] at hfound
      cases hfound
    have weaken : ∀ p ∈ assumed, s.outline j (.reference p.1) = s.outline j (.reference p.2) :=
      fun p hp => outline_eq_of_succ (agreed p hp)
    obtain ⟨k, rfl⟩ : ∃ i, k = i + 2 := ⟨k - 2, by omega⟩
    rw [Bool.eq_false_iff]
    by_cases hrefs : ∀ a b, t = .reference a → u ≠ .reference b
    · rw [ne_eq, equalWithin_succ_iff hrefs]
      exact roots (by omega) same differ weaken
    · push Not at hrefs
      obtain ⟨a, b, rfl, rfl⟩ := hrefs
      rw [ne_eq, equalWithin_reference_iff]
      rintro (rfl | hassumed | hequal)
      · exact differ rfl
      · exact differ (agreed _ hassumed)
      · have hderef : ∀ n i, s.outline i (s.deref (.reference n)) = s.outline i (.reference n) :=
          fun n => outline_eq_of_deref_eq (s.deref_deref _)
        have hroots : ∀ c d, s.deref (.reference a) = .reference c →
            s.deref (.reference b) ≠ .reference d := fun c _ hc =>
          absurd hc (s.deref_ne_reference _ c)
        have hpair := same j (Nat.lt_succ_self _)
        rw [equalWithin_succ_iff hroots] at hequal
        refine roots (by omega) (fun i hi => ?_) ?_ (List.forall_mem_cons.mpr ⟨hpair, weaken⟩) hequal
        · rw [hderef, hderef]
          exact same i hi
        · rwa [hderef, hderef]

/-- The types that stand in a type, or in the type of a name. -/
def reachable (s : Store) (t : Ty Name) : List (Ty Name) :=
  t.parts ++ s.entries.toList.flatMap fun e => (e.map (·.type.parts)).getD []

theorem parts_type_subset {n : Name} (h : s.isLive n) (t : Ty Name) :
    (s.type n).parts ⊆ s.reachable t := by
  obtain ⟨e, he⟩ := Option.isSome_iff_exists.mp h
  intro x hx
  rw [type_of_get? he] at hx
  refine List.mem_append_right _ (List.mem_flatMap.mpr ⟨some e, ?_, hx⟩)
  rw [get?, Option.join_eq_some_iff] at he
  exact Array.mem_toList_iff.mpr (Array.mem_of_getElem? he)

theorem children_deref_subset {x : Ty Name} (hx : x ∈ s.reachable t) :
    (s.deref x).children ⊆ s.reachable t := by
  rcases s.deref_eq_self_or_type x with h | ⟨n, hlive, h⟩ | h
  · rw [h]
    rcases List.mem_append.mp hx with hx | hx
    · exact fun y hy => List.mem_append_left _ (children_subset_parts hx hy)
    · obtain ⟨e, he, hx⟩ := List.mem_flatMap.mp hx
      refine fun y hy => List.mem_append_right _ (List.mem_flatMap.mpr ⟨e, he, ?_⟩)
      cases e with
      | none => cases hx
      | some e => exact children_subset_parts hx hy
  · rw [h]
    exact fun y hy => parts_type_subset hlive t (children_subset_parts (mem_parts_self _) hy)
  · rw [h]
    exact fun y hy => by cases hy

theorem length_reachable (s : Store) (t : Ty Name) :
    (s.reachable t).length = t.size + s.weight := by
  rw [reachable, List.length_append, length_parts, List.length_flatMap, weight, List.sum]
  congr 3
  funext e
  cases e <;> simp [length_parts]

/-- Where one more step down tells apart none of these types, no further step does. -/
theorem outline_eq_of_stable {X : Finset (Ty Name)}
    (closed : ∀ x ∈ X, ∀ y ∈ (s.deref x).children, y ∈ X) {k : Nat}
    (stable : ∀ x ∈ X, ∀ y ∈ X, s.outline k x = s.outline k y →
      s.outline (k + 1) x = s.outline (k + 1) y) (more : Nat) {x y : Ty Name} (hx : x ∈ X)
    (hy : y ∈ X) (h : s.outline k x = s.outline k y) :
    s.outline (k + more) x = s.outline (k + more) y := by
  induction more generalizing x y with
  | zero => exact h
  | succ more ih =>
    have hroots := outline_succ_eq_iff.mp (stable x hx y hy h)
    refine outline_succ_eq_iff.mpr (hroots.imp_of_mem fun x' hx' y' hy' h' => ?_)
    exact ih (closed x hx x' hx') (closed y hy y' hy') h'

/-- So many types are told apart for good by so many steps down. -/
theorem exists_stable {X : Finset (Ty Name)} (nonempty : X.Nonempty) :
    ∃ k < X.card, ∀ x ∈ X, ∀ y ∈ X, s.outline k x = s.outline k y →
      s.outline (k + 1) x = s.outline (k + 1) y := by
  classical
  by_contra hnone
  push Not at hnone
  -- As long as each step tells some more of them apart, there are more outlines than steps.
  have grows : ∀ k ≤ X.card, k + 1 ≤ (X.image (s.outline k)).card := by
    intro k hk
    induction k with
    | zero => exact Finset.card_pos.mpr (nonempty.image _)
    | succ k ih =>
      obtain ⟨x, hx, y, hy, heq, hne⟩ := hnone k hk
      have hfactor : Function.FactorsThrough (s.outline k) (s.outline (k + 1)) := fun a b hab =>
        outline_eq_of_succ hab
      obtain ⟨cut, hcut⟩ := (Function.factorsThrough_iff _).mp hfactor
      have himage : X.image (s.outline k) = (X.image (s.outline (k + 1))).image cut := by
        rw [hcut, Finset.image_image]
      have hle := ih (Nat.le_of_succ_le hk)
      rw [himage] at hle
      refine Nat.succ_le_of_lt (hle.trans_lt (lt_of_le_of_ne Finset.card_image_le fun hcard => ?_))
      have hinj := Finset.card_image_iff.mp hcard
      refine hne (hinj ?_ ?_ ?_)
      · exact Finset.mem_coe.mpr (Finset.mem_image_of_mem _ hx)
      · exact Finset.mem_coe.mpr (Finset.mem_image_of_mem _ hy)
      · rw [hcut] at heq
        exact heq
  have hcard := grows X.card le_rfl
  have hle : (X.image (s.outline X.card)).card ≤ X.card := Finset.card_image_le
  omega

/-- Types that do not agree differ at a depth that a comparison comes to. -/
theorem exists_outline_ne (h : ¬ s.Agree t u) :
    ∃ k, 2 * k ≤ s.comparisonDepth t u ∧ s.outline k t ≠ s.outline k u := by
  classical
  -- All that a comparison comes to is among the types that can be reached, of which there are
  -- finitely many.
  let X := (s.reachable t ++ s.reachable u).toFinset
  have ht : t ∈ X := by simp [X, reachable, mem_parts_self]
  have hu : u ∈ X := by simp [X, reachable, mem_parts_self]
  have closed : ∀ x ∈ X, ∀ y ∈ (s.deref x).children, y ∈ X := by
    intro x hx y hy
    rw [List.mem_toFinset, List.mem_append] at hx ⊢
    exact hx.imp (fun hx => children_deref_subset hx hy) (fun hx => children_deref_subset hx hy)
  have hcard : X.card ≤ (t.size + s.weight) + (u.size + s.weight) := by
    refine (List.toFinset_card_le _).trans ?_
    rw [List.length_append, length_reachable, length_reachable]
  -- From some step on no more types are told apart, so what is not by then never is.
  obtain ⟨k, hk, stable⟩ := exists_stable (s := s) ⟨t, ht⟩
  refine ⟨k, ?_, fun hsame => h fun m => ?_⟩
  · have hsize : 1 ≤ (s.size + 1) * (s.size + 1) := Nat.mul_pos (by omega) (by omega)
    have hsquare : 2 * k ≤ (s.weight + t.size + u.size + 1) * (s.weight + t.size + u.size + 1) := by
      have hfour := four_mul_le_sq_add (s.weight + t.size + u.size) 1
      rw [mul_one, sq] at hfour
      omega
    exact hsquare.trans (Nat.le_mul_of_pos_left _ hsize)
  · rcases Nat.le_total m k with hm | hm
    · exact outline_eq_of_le hm hsame
    · obtain ⟨more, rfl⟩ := Nat.exists_eq_add_of_le hm
      exact outline_eq_of_stable closed stable more ht hu hsame

/-- Comparisons from this depth on tell apart types that do not agree. -/
theorem equalWithin_eq_false_of_not_agree (h : ¬ s.Agree t u) {k : Nat}
    (hk : s.comparisonDepth t u ≤ k) : s.equalWithin k [] t u = false := by
  obtain ⟨j, hj, hne⟩ := exists_outline_ne h
  classical
  have hex : ∃ j, s.outline j t ≠ s.outline j u := ⟨j, hne⟩
  have hle : Nat.find hex ≤ j := Nat.find_min' hex hne
  exact equalWithin_eq_false (by omega) (fun i hi => not_not.mp (Nat.find_min hex hi))
    (Nat.find_spec hex) (by simp)

/-- The store finds two types equal exactly if they stand for the same tree. -/
theorem equal_iff_agree : s.equal t u = true ↔ s.Agree t u := by
  constructor
  · intro hequal
    by_contra h
    rw [equal, equalWithin_eq_false_of_not_agree h le_rfl] at hequal
    cases hequal
  · intro h
    exact h.equalWithin _ []

/-- Steps below the depth to which the store compares types change nothing. -/
theorem equalWithin_eq_equal {k : Nat} (hk : s.comparisonDepth t u ≤ k) :
    s.equalWithin k [] t u = s.equal t u := by
  by_cases hagree : s.Agree t u
  · rw [hagree.equalWithin, equal_iff_agree.mpr hagree]
  · rw [equalWithin_eq_false_of_not_agree hagree hk, equal,
      equalWithin_eq_false_of_not_agree hagree le_rfl]

end Store
end PiCalculus
