import Mathlib
import PiCalculus.Proofs.Binding.Scoped

/-! Names that are introduced once and occur inside the node that introduces them only. Labels play
no part in this, so it lasts whatever becomes of them. The channel of a receive stands inside its node,
where it may be one of the variables. -/

namespace PiCalculus.Process

variable {ν : Type} {introduced fewer : ν → Prop} {scope scope' : Scope ν} {p q : Process ν} {n : ν}
  {path : List Nat} {label : ν → String}

/-- Whether every introduced name that is used is introduced around it or is one of the names in
scope. -/
@[grind =] def Contained (introduced : ν → Prop) (scope : Scope ν) : Process ν → Prop
  | .nil => True
  | .send chan values => ∀ n ∈ chan :: values, introduced n → n ∈ scope
  | .receive chan vars body =>
    (introduced chan → chan ∈ vars.reverse ++ scope) ∧
      body.Contained introduced (vars.reverse ++ scope)
  | .par ps => ∀ p ∈ ps, p.Contained introduced scope
  | .replicate body => body.Contained introduced scope
  | .restrict name body => body.Contained introduced (name :: scope)
termination_by p => sizeOf p

theorem scoped_contained :
    Scoped (fun scope n => introduced n → n ∈ scope) List.reverse (Contained introduced) where
  leave h hne hi := by
    have hmem := h hi
    simp only [List.mem_append, List.mem_cons] at hmem ⊢
    tauto
  side_subset vars := List.reverse_subset.mpr (List.Subset.refl vars)
  nil scope := by simp [Contained]
  send scope chan values := by rw [Contained]
  receive scope chan vars body := by rw [Contained]
  par scope ps := by rw [Contained]
  replicate scope body := by rw [Contained]
  restrict scope name body := by rw [Contained]

namespace Contained

/-- A name may leave the scope if it is not used or does not count any more. -/
theorem mono (h : p.Contained introduced scope)
    (hs : ∀ n ∈ p.usedNames, fewer n → introduced n ∧ (n ∈ scope → n ∈ scope')) :
    p.Contained fewer scope' := by
  refine scoped_contained.mono scoped_contained (fun inner n hn hasks hf => ?_) h
  obtain ⟨hi, hscope⟩ := hs n hn hf
  have hmem := hasks hi
  rw [List.mem_append] at hmem ⊢
  exact hmem.imp_right hscope

theorem of_unused (h : ∀ n ∈ p.usedNames, ¬ introduced n) : p.Contained introduced scope := by
  have hnone : p.Contained (fun _ => False) scope := by
    induction p generalizing scope with
    | par ps ih =>
      rw [usedNames] at h
      rw [Contained]
      exact fun p hp => ih p hp fun n hn => h n (List.mem_flatMap.mpr ⟨p, hp, hn⟩)
    | _ => simp_all [Contained, usedNames]
  exact hnone.mono fun n hn hi => absurd hi (h n hn)

/-- An introduced name that no binder holds by its label is one of those in scope. -/
theorem mem_of_unbound (h : p.Contained introduced scope) (hn : n ∈ p.unbound label)
    (hi : introduced n) : n ∈ scope :=
  scoped_contained.of_unbound h hn hi

/-- An introduced name occurs only inside the node that introduces it, wherever this stands. -/
theorem notMem_outside (h : p.Contained introduced scope) (hd : (scope ++ p.binders).Nodup)
    (hat : p.at? path = some q) (hn : n ∈ q.binders) (hi : introduced n) :
    n ∉ (p.replaceAt path .nil).occurrences :=
  scoped_contained.notMem_outside (fun hasks => hasks hi) h hd hat hn

end Contained
end PiCalculus.Process
