import Mathlib
import PiCalculus.Proofs.Reduction.Retained
import PiCalculus.Proofs.Reduction.Simplification

/-! Every reduction ends. A step takes one send and one receive out of the process and brings none in,
and tidying up keeps the others, so that there are no more steps than sends or receives. -/

namespace PiCalculus

def Use.isSent {ν : Type} : Use ν → Bool
  | .sent .. => true
  | .received .. => false

namespace Process

variable {ν : Type}

/-- The number of the sends of a process, or else of its receives. -/
def useCount (sent : Bool) (p : Process ν) : Nat := p.uses.countP (·.isSent = sent)

theorem useCount_of_uses_map {μ : Type} {f : ν → μ} {p q : Process ν} (sent : Bool)
    (same : (q.map f).uses = (p.map f).uses) : q.useCount sent = p.useCount sent := by
  have hmap : ∀ r : Process ν, (r.map f).uses.countP (·.isSent = sent) = r.useCount sent := by
    intro r
    rw [uses_map, List.countP_map, useCount]
    refine List.countP_congr fun use _ => ?_
    cases use <;> rfl
  rw [← hmap, same, hmap]

end Process

namespace Store

variable {s : Store} {p : Process Name} {q : Reduct}

/-- What a step takes out of a process: one send and one receive. -/
structure Consumes (p : Process Name) (q : Reduct) : Prop where
  uses : ∃ chan values other vars,
    p.uses.Perm (.sent chan values :: .received other vars :: q.process.uses)
  tidy : ((q.process.simplify q.store.label).map q.store.label).uses =
    (q.process.map q.store.label).uses

theorem consumes_of_reduceOnce (h : s.reduceOnce p = .ok (some q)) : Consumes p q := by
  obtain ⟨path, ps, r, hr, -, rfl⟩ := of_reduceOnce h
  refine ⟨?_, Process.uses_simplify _ _⟩
  have hnil : (Process.nil : Process Name).uses = [] := by rw [Process.uses]
  obtain ⟨other, -, hperm⟩ := gathered_reduct Process.gathers_uses hnil hr
  rw [Process.uses] at hperm
  exact ⟨r.chan, r.values, other, r.vars, hperm⟩

theorem Consumes.useCount (h : Consumes p q) (sent : Bool) :
    (q.process.simplify q.store.label).useCount sent + 1 = p.useCount sent := by
  obtain ⟨⟨chan, values, other, vars, hperm⟩, htidy⟩ := h
  rw [Process.useCount_of_uses_map sent htidy, Process.useCount, Process.useCount,
    hperm.countP_eq]
  cases sent <;> simp [Use.isSent]

theorem useCount_reduceFrom (taken n : Nat) (s : Store) (p : Process Name) (sent : Bool) :
    let r := s.reduceFrom taken n p
    r.process.useCount sent + r.steps = p.useCount sent + taken := by
  induction n generalizing taken s p with
  | zero => rfl
  | succ n ih =>
    rw [reduceFrom]
    cases hq : s.reduceOnce p with
    | error e => rfl
    | ok found =>
      cases found with
      | none => rfl
      | some q =>
        have hstep := (consumes_of_reduceOnce hq).useCount sent
        have hrest := ih (taken + 1) q.store (q.process.simplify q.store.label)
        dsimp only at hrest ⊢
        omega

end Store

/-- How a reduction that may take so many steps has ended: it has taken them all, no communication was
due, or one was and failed. -/
inductive Reduction.Ended (most : Nat) (r : Reduction) : Prop
  | full (steps : r.steps = most) (failure : r.failure = none)
  | irreducible (steps : r.steps < most) (failure : r.failure = none)
      (attempt : r.store.reduceOnce r.process = .ok none)
  | failed {e : Error} (steps : r.steps < most) (failure : r.failure = some e)
      (attempt : r.store.reduceOnce r.process = .error e)

theorem Store.ended_reduceFrom (taken n : Nat) (s : Store) (p : Process Name) :
    (s.reduceFrom taken n p).Ended (taken + n) := by
  induction n generalizing taken s p with
  | zero => exact .full rfl rfl
  | succ n ih =>
    rw [reduceFrom]
    cases hq : s.reduceOnce p with
    | error e => exact .failed (Nat.lt_add_of_pos_right n.succ_pos) rfl hq
    | ok found =>
      cases found with
      | none => exact .irreducible (Nat.lt_add_of_pos_right n.succ_pos) rfl hq
      | some q =>
        have hrest := ih (taken + 1) q.store (q.process.simplify q.store.label)
        rw [Nat.add_right_comm, Nat.add_assoc] at hrest
        cases hrest with
        | full steps failure => exact .full steps failure
        | irreducible steps failure attempt => exact .irreducible steps failure attempt
        | failed steps failure attempt => exact .failed steps failure attempt

end PiCalculus
