import Mathlib
import PiCalculus.Proofs.Store.References
import PiCalculus.Store.Unfolding

/-! The tree of a type, without regard to how far references may be followed. Names above that no
way down may pass again make up for what is not followed, so it is enough to follow as many
references as there are names. A chain of references is passed at once: it adds nothing to the tree
itself, and it is cut off exactly where the name at its end is above. -/

namespace PiCalculus

theorem Ty.bind_reference {ρ σ : Type} (f : ρ → Ty σ) (n : ρ) : (reference n).bind f = f n := by
  rw [bind]

namespace Store

variable {s : Store} {above ns : List Name} {n r : Name} {x u : Ty Name}

/-- The names above on a way down: alive, and none of them twice. -/
structure Above (s : Store) (above : List Name) : Prop where
  nodup : above.Nodup
  isLive : ∀ n ∈ above, s.isLive n

theorem above_nil : s.Above [] := ⟨List.nodup_nil, by simp⟩

namespace Above

theorem cons (h : s.Above above) (hn : n ∉ above) (hlive : s.isLive n) : s.Above (n :: above) :=
  ⟨List.nodup_cons.mpr ⟨hn, h.nodup⟩, List.forall_mem_cons.mpr ⟨hlive, h.isLive⟩⟩

theorem id_lt (h : s.Above above) : ∀ n ∈ above, n.id < s.size := fun n hn =>
  id_lt_of_isLive (h.isLive n hn)

theorem length_le_size (h : s.Above above) : above.length ≤ s.size :=
  length_le_size_of_nodup h.nodup h.id_lt

/-- Every name is above once there are as many as there ever were. -/
theorem mem_of_size_le (h : s.Above above) (hsize : s.size ≤ above.length) (hn : n.id < s.size) :
    n ∈ above := by
  by_contra hnew
  have hnodup : (n :: above).Nodup := List.nodup_cons.mpr ⟨hnew, h.nodup⟩
  have hlength := length_le_size_of_nodup hnodup (List.forall_mem_cons.mpr ⟨hn, h.id_lt⟩)
  rw [List.length_cons] at hlength
  omega

theorem next_eq_none (h : s.Above above) (hsize : s.size ≤ above.length) (n : Name) :
    s.next above n = none := by
  rw [next]
  split
  · rfl
  · next hn =>
    cases he : s.get? n with
    | none => rfl
    | some e =>
      have hmem := h.mem_of_size_le hsize (id_lt_of_isLive (isLive_of_get? he))
      exact absurd (List.contains_iff_mem.mpr hmem) hn

end Above

theorem isLive_of_next {u : Ty Name} (h : s.next above n = some u) :
    n ∉ above ∧ s.isLive n ∧ u = s.type n := by
  rw [next] at h
  split at h
  · cases h
  · next hn =>
    obtain ⟨e, he, rfl⟩ := Option.map_eq_some_iff.mp h
    exact ⟨fun hmem => hn (List.contains_iff_mem.mpr hmem), isLive_of_get? he,
      (type_of_get? he).symm⟩

/-- Following more references than there are names left changes nothing. -/
theorem unfoldWithin_eq {k k' : Nat} (h : s.Above above) (hk : s.size ≤ k + above.length)
    (hk' : s.size ≤ k' + above.length) (x : Ty Name) :
    s.unfoldWithin k above x = s.unfoldWithin k' above x := by
  induction k generalizing k' above x with
  | zero =>
    -- All live names are above, so that no reference is followed.
    have hnone := h.next_eq_none (by omega)
    cases k' with
    | zero => rfl
    | succ k' => simp only [unfoldWithin, hnone]
  | succ k ih =>
    cases k' with
    | zero =>
      have hnone := h.next_eq_none (by omega)
      simp only [unfoldWithin, hnone]
    | succ k' =>
      rw [unfoldWithin, unfoldWithin]
      congr 1
      funext n
      cases hnext : s.next above n with
      | none => rfl
      | some u =>
        obtain ⟨hn, hlive, -⟩ := isLive_of_next hnext
        refine ih (h.cons hn hlive) ?_ ?_ u
        · rw [List.length_cons]; omega
        · rw [List.length_cons]; omega

/-- The tree of a type below the given names. -/
def unfoldBelow (s : Store) (above : List Name) (x : Ty Name) : Shape :=
  s.unfoldWithin s.size above x

theorem unfold_eq (x : Ty Name) : s.unfold x = s.unfoldBelow [] x := rfl

theorem unfoldBelow_eq_bind (x : Ty Name) :
    s.unfoldBelow above x = x.bind fun n => s.unfoldBelow above (.reference n) := by
  simp only [unfoldBelow]
  cases s.size with
  | zero => simp only [unfoldWithin, Ty.bind_reference]
  | succ k => simp only [unfoldWithin, Ty.bind_reference]

theorem unfoldBelow_untyped : s.unfoldBelow above .untyped = .untyped := by
  rw [unfoldBelow_eq_bind, Ty.bind]

theorem unfoldBelow_base (label : String) : s.unfoldBelow above (.base label) = .base label := by
  rw [unfoldBelow_eq_bind, Ty.bind]

theorem unfoldBelow_chan (x : Ty Name) :
    s.unfoldBelow above (.chan x) = .chan (s.unfoldBelow above x) := by
  rw [unfoldBelow_eq_bind, Ty.bind, ← unfoldBelow_eq_bind]

theorem unfoldBelow_composite (xs : List (Ty Name)) :
    s.unfoldBelow above (.composite xs) = .composite (xs.map (s.unfoldBelow above)) := by
  rw [unfoldBelow_eq_bind, Ty.bind]
  congr 1
  exact List.map_congr_left fun x _ => (unfoldBelow_eq_bind x).symm

theorem unfoldBelow_reference (h : s.Above above) (n : Name) :
    s.unfoldBelow above (.reference n) =
      match s.next above n with
      | none => .untyped
      | some u => s.unfoldBelow (n :: above) u := by
  rw [unfoldBelow]
  cases hsize : s.size with
  | zero =>
    rw [h.next_eq_none (by omega), unfoldWithin, Ty.bind_reference]
  | succ k =>
    rw [unfoldWithin, Ty.bind_reference]
    cases hnext : s.next above n with
    | none => rfl
    | some u =>
      obtain ⟨hn, hlive, -⟩ := isLive_of_next hnext
      refine unfoldWithin_eq (h.cons hn hlive) ?_ (Nat.le_add_right _ _) u
      rw [List.length_cons]
      omega

theorem next_of_mem (h : n ∈ above) : s.next above n = none := by
  rw [next, if_pos (List.contains_iff_mem.mpr h)]

theorem next_of_notMem {e : Entry} (h : n ∉ above) (he : s.get? n = some e) :
    s.next above n = some e.type := by
  rw [next, if_neg (mt List.contains_iff_mem.mp h), he, Option.map_some]

/-- A reference is cut off if the name that it leads to is above. -/
theorem unfoldBelow_of_mem (h : s.Above above) (hfollows : s.Follows (.reference n) ns u)
    (hlast : ns.getLast? = some r) (hr : r ∈ above) :
    s.unfoldBelow above (.reference n) = .untyped := by
  induction ns generalizing n above with
  | nil => cases hlast
  | cons c ns ih =>
    cases hfollows with
    | @step _ e _ _ he rest =>
      rw [unfoldBelow_reference h]
      by_cases hn : c ∈ above
      · rw [next_of_mem hn]
      · rw [next_of_notMem hn he]
        cases hrest : e.type with
        | reference a =>
          rw [hrest] at rest
          have hlast' : ns.getLast? = some r := by
            cases ns with
            | nil => exact absurd rest.eq_of_nil (rest.ne_reference a)
            | cons d ns => simpa using hlast
          exact ih (h.cons hn (isLive_of_get? he)) rest hlast' (List.mem_cons_of_mem _ hr)
        | _ =>
          rw [hrest] at rest
          cases rest
          obtain rfl : c = r := by simpa using hlast
          exact absurd hr hn

/-- Otherwise the tree goes on behind the chain, below all that the chain passes. -/
theorem unfoldBelow_of_follows (h : s.Above above) (hfollows : s.Follows x ns u)
    (hns : ∀ c ∈ ns, c ∉ above) :
    s.Above (ns.reverse ++ above) ∧
      s.unfoldBelow above x = s.unfoldBelow (ns.reverse ++ above) u := by
  induction hfollows generalizing above with
  | done hne => exact ⟨h, rfl⟩
  | @step n e ns u he rest ih =>
    obtain ⟨hn, hns⟩ := List.forall_mem_cons.mp hns
    have hnodup := (Follows.step he rest).nodup
    have hmore := h.cons hn (isLive_of_get? he)
    obtain ⟨habove, heq⟩ := ih hmore fun c hc hmem => by
      rcases List.mem_cons.mp hmem with rfl | hmem
      · exact (List.nodup_cons.mp hnodup).1 hc
      · exact hns c hc hmem
    rw [List.reverse_cons, List.append_assoc, List.singleton_append]
    refine ⟨habove, ?_⟩
    rw [unfoldBelow_reference h, next_of_notMem hn he]
    exact heq

/-- Whatever a name above refers to is above as well. -/
def PassesOn (s : Store) (above : List Name) : Prop :=
  ∀ a ∈ above, ∀ b, s.type a = .reference b → b ∈ above

theorem PassesOn.append {above' : List Name} (h : s.PassesOn above) (h' : s.PassesOn above') :
    s.PassesOn (above.reverse ++ above') := by
  intro a ha b hb
  rw [List.mem_append, List.mem_reverse] at ha ⊢
  exact ha.imp (fun ha => h a ha b hb) fun ha => h' a ha b hb

namespace Follows

theorem eq_reference {a : Name} (h : s.Follows x (a :: ns) u) : x = .reference a := by
  cases h
  rfl

theorem passesOn (h : s.Follows x ns u) : s.PassesOn ns := by
  induction h with
  | done => simp [PassesOn]
  | @step n e ns u he rest ih =>
    intro a ha b hb
    rcases List.mem_cons.mp ha with rfl | ha
    · rw [type_of_get? he] at hb
      rw [hb] at rest
      cases rest with
      | done hne => exact absurd rfl (hne b)
      | step => exact List.mem_cons_of_mem _ List.mem_cons_self
    · exact List.mem_cons_of_mem _ (ih a ha b hb)

/-- Only the last name of a chain does not refer to another one. -/
theorem getLast?_eq (h : s.Follows x ns u) (hn : n ∈ ns) (hne : ∀ m, s.type n ≠ .reference m) :
    ns.getLast? = some n := by
  induction h with
  | done => cases hn
  | @step m e ns u he rest ih =>
    cases ns with
    | nil => exact congrArg some (List.mem_singleton.mp hn).symm
    | cons a ns =>
      rw [List.getLast?_cons_cons]
      rcases List.mem_cons.mp hn with rfl | hn
      · rw [type_of_get? he] at hne
        exact absurd rest.eq_reference (hne a)
      · exact ih hn

theorem mem_iff_of_getLast? (h : s.Follows x ns u) (hlast : ns.getLast? = some r)
    (hne : ∀ m, s.type n ≠ .reference m) : n ∈ ns ↔ n = r := by
  constructor
  · intro hn
    rw [h.getLast?_eq hn hne, Option.some.injEq] at hlast
    exact hlast
  · rintro rfl
    exact List.mem_of_getLast? hlast

/-- From a name above on, the names of a chain are above. -/
theorem mem_of_getLast? (h : s.Follows x ns u) (habove : s.PassesOn above)
    (hlast : ns.getLast? = some r) (hn : n ∈ ns) (hmem : n ∈ above) : r ∈ above := by
  induction h generalizing n with
  | done => cases hn
  | @step m e ns u he rest ih =>
    cases ns with
    | nil =>
      obtain rfl : m = r := by simpa using hlast
      obtain rfl : n = m := by simpa using hn
      exact hmem
    | cons a ns =>
      rw [List.getLast?_cons_cons] at hlast
      rcases List.mem_cons.mp hn with rfl | hn
      · have hnext := habove n hmem a ((type_of_get? he).trans rest.eq_reference)
        exact ih hlast List.mem_cons_self hnext
      · exact ih hlast hn hmem

end Follows

end Store
end PiCalculus
