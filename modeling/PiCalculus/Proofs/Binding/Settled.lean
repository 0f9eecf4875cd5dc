import Mathlib
import PiCalculus.Proofs.Binding.Stable
import PiCalculus.Proofs.Reduction.Retained

/-! Binding settles which name every occurrence is. Binding again finds the same names in force at
every place, also after restrictions and `0` have been taken out, so that a process is bound already
whenever it has been bound or tidied up last. -/

namespace PiCalculus

open Process

theorem Store.exists_simplify_of_steps_pos {s : Store} {p : Process Name} (n : Nat)
    (stepped : 0 < (s.reduce p n).steps) :
    ∃ q : Process Name, (s.reduce p n).process = q.simplify (s.reduce p n).store.label := by
  induction n with
  | zero => exact absurd stepped (Nat.lt_irrefl 0)
  | succ n ih =>
    rcases s.reduce_succ p n with ⟨q, -, -, -, hstore, hprocess⟩ | ⟨hsteps, hstore, hprocess⟩
    · rw [hstore, hprocess]
      exact ⟨q.process, rfl⟩
    · rw [hstore, hprocess]
      apply ih
      rwa [hsteps] at stepped

namespace Program

/-- An operation that leaves a bound process leaves nothing to be bound in the program. -/
theorem run_bind_run {p : Program} {op : Operation}
    (bound : let left := op.run [] p.store p.process
      left.process.bind left.store.label = left.process) :
    ((p.run op).1.run .bind).1 = (p.run op).1 := by
  let left := op.run [] p.store p.process
  let s := left.store.retain left.process.occurrences
  have hagree : left.store.AgreesOn s left.process.occurrences := left.store.agreesOn_retain _
  have hbind : left.process.bind s.label = left.process := by
    have hlabel : ∀ n ∈ left.process.occurrences, s.label n = left.store.label n :=
      fun n hn => (hagree.label hn).symm
    rw [bind_congr hlabel]
    exact bound
  show (⟨left.process.bind s.label, s.retain (left.process.bind s.label).occurrences⟩ : Program) =
    ⟨left.process, s⟩
  rw [hbind]
  exact congrArg _ hagree.retain_eq.symm

/-- Binding changes nothing in what has just been bound or tidied up, or has been reduced by a step. -/
theorem bind_settles (p : Program) (n : Nat) :
    ((p.run .bind).1.run .bind).1 = (p.run .bind).1 ∧
      ((p.run .simplify).1.run .bind).1 = (p.run .simplify).1 ∧
      (0 < (p.store.reduce p.process n).steps →
        ((p.run (.reduce n)).1.run .bind).1 = (p.run (.reduce n)).1) := by
  refine ⟨run_bind_run (bind_bind p.process), run_bind_run (bind_simplify p.store.label p.process),
    fun stepped => run_bind_run ?_⟩
  obtain ⟨q, hq⟩ := Store.exists_simplify_of_steps_pos n stepped
  show (p.store.reduce p.process n).process.bind (p.store.reduce p.process n).store.label =
    (p.store.reduce p.process n).process
  rw [hq]
  exact bind_simplify _ q

/-- The value that is sent falls under a restriction of its label, and the second step is made there. -/
theorem bind_settles_captured :
    ∃ p, Program.parse "(new a)(a<b> | a(x).(new b)(x<b> | x(y).y<y>))" = .ok p ∧
      (p.run (.reduce 2)).1.calculi = "(new b)b<b>" ∧
      0 < (p.store.reduce p.process 2).steps ∧
      ((p.run (.reduce 2)).1.run .bind).1 = (p.run (.reduce 2)).1 := by
  obtain ⟨p, parsed, htext, hsteps⟩ : ∃ p,
      Program.parse "(new a)(a<b> | a(x).(new b)(x<b> | x(y).y<y>))" = .ok p ∧
      (p.run (.reduce 2)).1.calculi = "(new b)b<b>" ∧
      0 < (p.store.reduce p.process 2).steps := by
    decide +kernel
  exact ⟨p, parsed, htext, hsteps, (bind_settles p 2).2.2 hsteps⟩

end Program

end PiCalculus
