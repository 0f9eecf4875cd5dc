import Mathlib
import PiCalculus.Proofs.Typing.Variables

/-! Typing is passes of single writes that stop at the first failure. What each write keeps is kept by a
pass, and by inference and unification together, whether they succeed or not. -/

namespace PiCalculus.Store

variable {motive : Store → Prop} {s : Store} {p : Process Name}

theorem infer_store_induction (start : motive s)
    (set : ∀ t, motive t → ∀ n names, motive (t.setType n (.chan (t.element names))).store) :
    motive (s.infer p).store := by
  apply writeEach_store_induction start
  intro use _ t ht
  cases use with
  | sent chan values => exact set t ht chan values
  | received chan vars =>
    rw [inferUse]
    split
    · exact set t ht chan vars
    · exact ht

/-- The only write for a variable gives the type of one side to a name that awaits a type. -/
theorem unifyVar_store_induction {chan var : Name} {elem : Ty Name} (start : motive s)
    (set : ∀ n type, s.Awaits elem var n → s.refersTo type n = false →
      type = elem ∨ type = s.type var → motive (s.setType n type).store) :
    motive (s.unifyVar chan elem var).store := by
  have hways := s.unifies_unifyVar chan elem var
  generalize s.unifyVar chan elem var = w at hways
  cases hways with
  | met => exact start
  | given awaits back side => exact set _ _ awaits back (side.imp_right And.left)
  | matched => exact start
  | differs => exact start

/-- What a channel carries is read before the first of its variables is dealt with. -/
theorem unify_store_induction (start : motive s)
    (step : ∀ t chan carried, motive t → t.deref (t.type chan) = .chan carried →
      ∀ elem ∈ carried.elements, ∀ var u, motive u → motive (u.unifyVar chan elem var).store) :
    motive (s.unify p).store := by
  apply writeEach_store_induction start
  rintro ⟨chan, vars⟩ - t ht
  dsimp only [unifyReceive]
  split
  · next carried hcarried =>
    split
    · apply writeEach_store_induction ht
      rintro ⟨elem, var⟩ hpair u hu
      exact step t chan carried ht hcarried elem (List.of_mem_zip hpair).1 var u hu
    · exact ht
  · exact ht

theorem inferAndUnify_store_induction (inferred : motive (s.infer p).store)
    (unified : ∀ t, motive t → motive (t.unify p).store) : motive (s.inferAndUnify p).store := by
  unfold inferAndUnify
  split
  · next t ht =>
    rw [ht] at inferred
    exact unified t inferred
  · exact inferred

end PiCalculus.Store
