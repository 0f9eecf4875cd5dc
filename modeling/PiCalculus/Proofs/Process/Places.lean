import Mathlib
import PiCalculus.Proofs.Process.BreadthFirst

/-! What a process has in it, told by the places of its nodes. -/

namespace PiCalculus.Process

variable {ν : Type} {p q : Process ν} {n : ν}

/-- What a process has in it if a node of it does so is had at some place. -/
theorem exists_at?_iff {atRoot inside : Process ν → Prop}
    (h : ∀ p, inside p ↔ atRoot p ∨ ∃ q ∈ p.children, inside q) (p : Process ν) :
    (∃ place q, p.at? place = some q ∧ atRoot q) ↔ inside p := by
  constructor
  · rintro ⟨place, q, hat, hq⟩
    induction place generalizing p with
    | nil =>
      obtain rfl : p = q := Option.some.inj hat
      exact (h p).mpr (.inl hq)
    | cons i place ih =>
      obtain ⟨child, hchild, hat⟩ := Option.bind_eq_some_iff.mp hat
      exact (h p).mpr (.inr ⟨child, List.mem_of_getElem? hchild, ih child hat⟩)
  · intro hp
    induction hk : p.height using Nat.strong_induction_on generalizing p with
    | h k ih =>
      rcases (h p).mp hp with hroot | ⟨child, hchild, hinside⟩
      · exact ⟨[], p, rfl, hroot⟩
      · obtain ⟨place, q, hat, hq⟩ :=
          ih child.height (hk ▸ height_lt_of_mem_children hchild) child hinside rfl
        obtain ⟨i, hi⟩ := List.mem_iff_getElem?.mp hchild
        refine ⟨i :: place, q, ?_, hq⟩
        rw [at?, hi]
        exact hat

/-- Whether all nodes of a process are such. -/
def Everywhere (such : Process ν → Prop) (p : Process ν) : Prop :=
  ∀ place q, p.at? place = some q → such q

theorem everywhere_iff {such : Process ν → Prop} :
    p.Everywhere such ↔ such p ∧ ∀ q ∈ p.children, q.Everywhere such := by
  constructor
  · intro h
    refine ⟨h [] p rfl, fun q hq place r hat => ?_⟩
    obtain ⟨i, hi⟩ := List.mem_iff_getElem?.mp hq
    refine h (i :: place) r ?_
    rw [at?, hi]
    exact hat
  · rintro ⟨hroot, hchildren⟩ place r hat
    cases place with
    | nil => exact Option.some.inj hat ▸ hroot
    | cons i place =>
      obtain ⟨q, hq, hat⟩ := Option.bind_eq_some_iff.mp hat
      exact hchildren q (List.mem_of_getElem? hq) place r hat

/-- Nodes have places, and in breadth-first order they are all met. -/
theorem everywhere_iff_breadthFirst {such : Process ν → Prop} :
    p.Everywhere such ↔ ∀ q ∈ p.breadthFirst, such q := by
  have hnot : ∀ p : Process ν, ¬ p.Everywhere such ↔
      ¬ such p ∨ ∃ q ∈ p.children, ¬ q.Everywhere such := fun p => by
    rw [everywhere_iff, not_and_or, not_forall]
    simp only [Classical.not_imp]
  rw [← not_iff_not, ← exists_mem_breadthFirst hnot]
  simp

section everywhere

variable {such : Process ν → Prop} {chan name : ν} {values vars : List ν} {body : Process ν}
  {ps : List (Process ν)}

theorem everywhere_nil : (nil : Process ν).Everywhere such ↔ such nil := by
  rw [everywhere_iff, children, and_iff_left (by simp)]

theorem everywhere_send : (send chan values).Everywhere such ↔ such (send chan values) := by
  rw [everywhere_iff, children, and_iff_left (by simp)]

theorem everywhere_receive : (receive chan vars body).Everywhere such ↔
    such (receive chan vars body) ∧ body.Everywhere such := by
  rw [everywhere_iff, children, List.forall_mem_singleton]

theorem everywhere_par : (par ps).Everywhere such ↔
    such (par ps) ∧ ∀ p ∈ ps, p.Everywhere such := by
  rw [everywhere_iff, children]

theorem everywhere_replicate : (replicate body).Everywhere such ↔
    such (replicate body) ∧ body.Everywhere such := by
  rw [everywhere_iff, children, List.forall_mem_singleton]

theorem everywhere_restrict : (restrict name body).Everywhere such ↔
    such (restrict name body) ∧ body.Everywhere such := by
  rw [everywhere_iff, children, List.forall_mem_singleton]

end everywhere

theorem exists_at?_rootNames : (∃ place q, p.at? place = some q ∧ n ∈ q.rootNames) ↔
    n ∈ p.occurrences :=
  exists_at?_iff (fun _ => mem_occurrences_iff) p

/-- A name at a send or at a receive: its channel, or what it sends or receives. -/
def rootPrefix : Process ν → List ν
  | send chan names | receive chan names _ => chan :: names
  | _ => []

theorem mem_prefixNames_iff :
    n ∈ p.prefixNames ↔ n ∈ p.rootPrefix ∨ ∃ q ∈ p.children, n ∈ q.prefixNames := by
  cases p <;> simp [prefixNames, rootPrefix, children, or_assoc]

theorem exists_at?_rootPrefix : (∃ place q, p.at? place = some q ∧ n ∈ q.rootPrefix) ↔
    n ∈ p.prefixNames :=
  exists_at?_iff (fun _ => mem_prefixNames_iff) p

theorem rootPrefix_subset_rootNames (p : Process ν) : p.rootPrefix ⊆ p.rootNames := by
  cases p <;> simp [rootPrefix, rootNames]

theorem prefixNames_subset_occurrences (p : Process ν) : p.prefixNames ⊆ p.occurrences := by
  intro n hn
  obtain ⟨place, q, hat, hq⟩ := exists_at?_rootPrefix.mpr hn
  exact exists_at?_rootNames.mp ⟨place, q, hat, q.rootPrefix_subset_rootNames hq⟩

end PiCalculus.Process
