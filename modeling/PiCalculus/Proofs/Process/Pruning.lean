import Mathlib
import PiCalculus.Proofs.Process.Structure
import PiCalculus.Reduction.Congruence

/-! What is collected from all over a process, part by part, and is not lost with a `0` that is taken
out. -/

namespace PiCalculus.Process

variable {ν α : Type} {collect : Scope ν → Process ν → List α}

/-- What `0` has none of is not lost with it. -/
theorem flatMap_filter_isNil {β : Type} {f : Process ν → List β} (hnil : f .nil = [])
    (ps : List (Process ν)) : (ps.filter (!·.isNil)).flatMap f = ps.flatMap f := by
  induction ps with
  | nil => rfl
  | cons p ps ih =>
    by_cases hp : p.isNil
    · obtain rfl : p = .nil := by
        cases p with
        | nil => rfl
        | _ => simp [isNil] at hp
      rw [List.filter_cons_of_neg (by simp [isNil]), ih, List.flatMap_cons, hnil, List.nil_append]
    · rw [List.filter_cons_of_pos (by simpa using hp), List.flatMap_cons, List.flatMap_cons, ih]

/-- From `0` nothing is collected, and from a composition what is collected from its components. What is
collected from another node depends on its body only by what is collected there, and nothing is collected
at a restriction of `0`. -/
structure Collects (collect : Scope ν → Process ν → List α) : Prop where
  nil : ∀ scope, collect scope .nil = []
  receive : ∀ scope chan vars, ∃ (inner : Scope ν) (through : List α → List α), ∀ body,
    collect scope (.receive chan vars body) = through (collect inner body)
  par : ∀ scope ps, collect scope (.par ps) = ps.flatMap (collect scope)
  replicate : ∀ scope body, collect scope (.replicate body) = collect scope body
  restrict : ∀ scope name, ∃ (inner : Scope ν) (through : List α → List α), through [] = [] ∧
    ∀ body, collect scope (.restrict name body) = through (collect inner body)

theorem Collects.prune (h : Collects collect) (scope : Scope ν) (p : Process ν) :
    collect scope p.prune = collect scope p := by
  induction p generalizing scope with
  | nil => rw [Process.prune]
  | send chan values => rw [Process.prune]
  | receive chan vars body ih =>
    obtain ⟨inner, through, heq⟩ := h.receive scope chan vars
    rw [Process.prune, heq, heq, ih]
  | par ps ih =>
    have hps : ((ps.map Process.prune).filter (!·.isNil)).flatMap (collect scope) =
        ps.flatMap (collect scope) := by
      rw [flatMap_filter_isNil (h.nil scope), List.flatMap_map]
      exact List.flatMap_congr fun p hp => ih p hp scope
    rw [Process.prune, h.par, ← hps]
    split
    · next hnone => rw [hnone, h.nil, List.flatMap_nil]
    · next q hone => rw [hone, List.flatMap_singleton]
    · rw [h.par]
  | replicate body ih =>
    rw [Process.prune, h.replicate, ← ih]
    split
    · next hnil => rw [hnil, h.nil]
    · rw [h.replicate]
  | restrict name body ih =>
    obtain ⟨inner, through, hnothing, heq⟩ := h.restrict scope name
    rw [Process.prune, heq, ← ih]
    split
    · next hnil => rw [hnil, h.nil, h.nil, hnothing]
    · rw [heq]

end PiCalculus.Process
