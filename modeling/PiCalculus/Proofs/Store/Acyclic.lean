import Mathlib
import PiCalculus.Proofs.Store.Unfolding

/-! Stores in which no name is reached from its own type. Following references from a type comes to an
end there on every way down, so what is said of types can be shown for a type after it is shown for the
types of the names that stand in it. No reference is ever cut off for being above itself. -/

namespace PiCalculus

theorem Ty.bind_congr {ρ σ : Type} {f g : ρ → Ty σ} (t : Ty ρ) (h : ∀ n ∈ t.references, f n = g n) :
    t.bind f = t.bind g := by
  fun_induction references t with
  | case1 => rw [bind, bind]
  | case2 => rw [bind, bind]
  | case3 t ih => rw [bind, bind, ih h]
  | case4 ts ih =>
    rw [bind, bind, List.map_congr_left]
    exact fun t ht => ih t ht fun n hn => h n (List.mem_flatMap.mpr ⟨t, ht, hn⟩)
  | case5 n => rw [bind, bind, h n (List.mem_singleton_self n)]

namespace Store

/-- The type of a name refers to another one. -/
def PointsTo (s : Store) (n m : Name) : Prop := m ∈ (s.type n).references

/-- No name is reached from its own type if all references lead to names that were made later. -/
theorem not_transGen_pointsTo {s : Store}
    (later : ∀ i < s.size, ∀ m ∈ (s.type ⟨i⟩).references, i < m.id) (n : Name) :
    ¬ Relation.TransGen s.PointsTo n n := by
  have step : ∀ n m, s.PointsTo n m → n.id < m.id := by
    intro n m hm
    by_cases hn : n.id < s.size
    · exact later n.id hn m hm
    · have hdead : s.isLive n = false :=
        Bool.eq_false_iff.mpr fun hlive => hn (id_lt_of_isLive hlive)
      rw [PointsTo, type_of_not_isLive hdead] at hm
      simp [Ty.references] at hm
  intro hcycle
  have climb : ∀ m, Relation.TransGen s.PointsTo n m → n.id < m.id := by
    intro m hm
    induction hm with
    | single h => exact step _ _ h
    | tail _ h ih => exact ih.trans (step _ _ h)
  exact Nat.lt_irrefl _ (climb n hcycle)

/-- No name is reached from its own type, neither through channels nor through composites. -/
def Acyclic (s : Store) : Prop := ∀ n, ¬ Relation.TransGen s.PointsTo n n

/-- A name stands in a type or is reached from one that does. -/
def Involves (s : Store) (t : Ty Name) (n : Name) : Prop :=
  ∃ m ∈ t.references, Relation.ReflTransGen s.PointsTo m n

variable {s : Store} {above above' : List Name} {n : Name}

namespace Acyclic

/-- Names that are passed on the way down are not reached again, so that there is an end to them. -/
theorem not_involves_cons (h : s.Acyclic) {t : Ty Name} (hn : n ∈ t.references)
    (hfree : ∀ a ∈ above, ¬ s.Involves t a) : ∀ a ∈ n :: above, ¬ s.Involves (s.type n) a := by
  rintro a ha ⟨m, hm, path⟩
  rcases List.mem_cons.mp ha with rfl | ha
  · exact h a (.head' hm path)
  · exact hfree a ha ⟨n, hn, .head hm path⟩

theorem induction (h : s.Acyclic) {motive : Ty Name → Prop}
    (step : ∀ t, (∀ n ∈ t.references, s.isLive n → motive (s.type n)) → motive t) (t : Ty Name) :
    motive t := by
  have below : ∀ k above t, s.Above above → s.size ≤ k + above.length →
      (∀ a ∈ above, ¬ s.Involves t a) → motive t := by
    intro k
    induction k with
    | zero =>
      -- All names are above here, and none of them stands in the type.
      intro above t habove hsize hfree
      refine step t fun n hn live => ?_
      have hmem := habove.mem_of_size_le (by omega) (id_lt_of_isLive live)
      exact absurd ⟨n, hn, .refl⟩ (hfree n hmem)
    | succ k ih =>
      intro above t habove hsize hfree
      refine step t fun n hn live => ?_
      have hnew : n ∉ above := fun hmem => hfree n hmem ⟨n, hn, .refl⟩
      refine ih (n :: above) _ (habove.cons hnew live) ?_ (h.not_involves_cons hn hfree)
      rw [List.length_cons]
      omega
  exact below s.size [] t above_nil (Nat.le_add_right _ _) (by simp)

/-- Names above make no difference where none of them is reached. -/
theorem unfoldBelow_congr (h : s.Acyclic) (t : Ty Name) (habove : s.Above above)
    (habove' : s.Above above') (hfree : ∀ a ∈ above, ¬ s.Involves t a)
    (hfree' : ∀ a ∈ above', ¬ s.Involves t a) : s.unfoldBelow above t = s.unfoldBelow above' t := by
  induction t using h.induction generalizing above above' with
  | step t ih =>
  rw [unfoldBelow_eq_bind t, unfoldBelow_eq_bind t]
  apply Ty.bind_congr
  intro n hn
  have hnew : n ∉ above := fun hmem => hfree n hmem ⟨n, hn, .refl⟩
  have hnew' : n ∉ above' := fun hmem => hfree' n hmem ⟨n, hn, .refl⟩
  rw [unfoldBelow_reference habove, unfoldBelow_reference habove']
  cases he : s.get? n with
  | none => simp [next, he]
  | some e =>
    have live := isLive_of_get? he
    rw [next_of_notMem hnew he, next_of_notMem hnew' he, ← type_of_get? he]
    exact ih n hn live (habove.cons hnew live) (habove'.cons hnew' live)
      (h.not_involves_cons hn hfree) (h.not_involves_cons hn hfree')

theorem unfold_reference (h : s.Acyclic) (n : Name) :
    s.unfold (.reference n) = s.unfold (s.type n) := by
  rw [unfold_eq, unfoldBelow_reference above_nil]
  cases he : s.get? n with
  | none =>
    rw [type_of_get?_none he, unfold_eq, unfoldBelow_untyped]
    simp [next, he]
  | some e =>
    have hsingle : s.Above [n] := above_nil.cons List.not_mem_nil (isLive_of_get? he)
    have hfree : ∀ a ∈ [n], ¬ s.Involves (s.type n) a :=
      h.not_involves_cons (t := .reference n) (by simp [Ty.references]) (by simp)
    rw [next_of_notMem List.not_mem_nil he, ← type_of_get? he]
    exact h.unfoldBelow_congr _ hsingle above_nil hfree (by simp)

end Acyclic

/-- Every reference is replaced by the tree of its target, and that of a dropped name is unknown. -/
def Unfolds (s : Store) (tree : Ty Name → Shape) : Prop :=
  ∀ t, tree t = t.bind fun n =>
    match s.get? n with
    | none => .untyped
    | some e => tree e.type

namespace Acyclic

theorem unfolds (h : s.Acyclic) : s.Unfolds s.unfold := by
  intro t
  rw [unfold_eq, unfoldBelow_eq_bind]
  apply Ty.bind_congr
  intro n hn
  rw [← unfold_eq, h.unfold_reference]
  cases he : s.get? n with
  | none => rw [type_of_get?_none he, unfold_eq, unfoldBelow_untyped]
  | some e => rw [type_of_get? he]

/-- There is only one way to replace all references. -/
theorem unfolds_iff (h : s.Acyclic) {tree : Ty Name → Shape} : s.Unfolds tree ↔ tree = s.unfold := by
  refine ⟨fun htree => funext fun t => ?_, fun htree => htree ▸ h.unfolds⟩
  induction t using h.induction with
  | step t ih =>
  rw [htree t, h.unfolds t]
  apply Ty.bind_congr
  intro n hn
  cases he : s.get? n with
  | none => rfl
  | some e =>
    have htarget := ih n hn (isLive_of_get? he)
    rwa [type_of_get? he] at htarget

theorem unfold_deref (h : s.Acyclic) (t : Ty Name) : s.unfold (s.deref t) = s.unfold t := by
  induction t using h.induction with
  | step t ih =>
  cases t with
  | reference n =>
    rw [deref_reference, h.unfold_reference]
    cases hlive : s.isLive n with
    | true => exact ih n (by simp [Ty.references]) hlive
    | false => rw [type_of_not_isLive hlive, deref_untyped]
  | _ => rw [deref_of_ne_reference (by simp)]

end Acyclic

end Store
end PiCalculus
