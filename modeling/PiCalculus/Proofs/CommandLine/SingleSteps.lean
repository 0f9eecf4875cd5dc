import Mathlib
import PiCalculus.CommandLine
import PiCalculus.Proofs.Reduction.Ending
import PiCalculus.Proofs.Repl.Commands

/-! Reductions one after the other. They come to one reduction of all their steps, and so do the single
steps that a command takes to write the process after each. -/

namespace PiCalculus

theorem Program.result_reduce (p : Program) (n : Nat) : (p.run (.reduce n)).2.result =
    (p.store.reduce p.process n).failure.elim
      (.ok (.count (p.store.reduce p.process n).steps)) .error := by
  change Operation.Outcome.result ⟨_, _, _, _⟩ = _
  cases (p.store.reduce p.process n).failure <;> rfl

namespace FileCommand

def stepLine (style : Style) (p : Program) : Piece :=
  .out (style.paint .grey "->" ++ " " ++ style.paint .cyan p.calculi ++ "\n")

def stopLine (style : Style) (steps : Nat) : Piece :=
  .out (style.paint .yellow ("Stopped after " ++ toString steps ++ " steps.") ++ "\n")

/-- The lines for a reduction by at most so many steps after those that have been taken. -/
def stepLines (style : Style) (taken most : Nat) (p : Program) : Transcript :=
  let steps := (p.store.reduce p.process most).steps
  (List.range steps).map (fun k => stepLine style (p.run (.reduce (k + 1))).1) ++
    if steps = most then [stopLine style (taken + most)] else []

variable {style : Style} {p : Program} {taken more : Nat}

/-- A single step is followed by others if it is taken, and otherwise nothing is written for it. -/
theorem reduceSteps_succ (style : Style) (taken more : Nat) (p : Program) :
    let one := p.store.reduce p.process 1
    let rest := reduceSteps style (taken + 1) more (p.run (.reduce 1)).1
    ∃ events, reduceSteps style taken (more + 1) p =
      if one.failure = none ∧ one.steps = 1 then
        (style.log events ++ stepLine style (p.run (.reduce 1)).1 :: rest.1, rest.2)
      else (style.log events, one.failure) := by
  intro one rest
  have hresult : (p.run (.reduce 1)).2.result = one.failure.elim (.ok (.count one.steps)) .error :=
    p.result_reduce 1
  rw [reduceSteps]
  -- From here on only what the run answers counts.
  clear_value one
  subst rest
  generalize p.run (.reduce 1) = ran at hresult ⊢
  obtain ⟨q, outcome⟩ := ran
  dsimp only at hresult ⊢
  rw [hresult]
  refine ⟨outcome.events, ?_⟩
  cases hfailure : one.failure with
  | some e => simp
  | none =>
    rw [Option.elim_none]
    by_cases hsteps : one.steps = 1
    · rw [if_pos ⟨rfl, hsteps⟩, hsteps]
      rfl
    · rw [if_neg fun h => hsteps h.2]
      split
      · next heq => cases heq
      · next heq =>
        rw [Except.ok.injEq, Operation.Value.count.injEq] at heq
        exact (hsteps heq).elim
      · rfl

theorem stepLines_succ (h : (p.store.reduce p.process 1).failure = none)
    (hsteps : (p.store.reduce p.process 1).steps = 1) :
    stepLines style taken (more + 1) p =
      stepLine style (p.run (.reduce 1)).1 :: stepLines style (taken + 1) more (p.run (.reduce 1)).1 := by
  have hlater := Program.reduce_add more h
  have hshift := hlater.steps
  rw [hsteps, Nat.add_comm 1 more] at hshift
  have hline : (fun k => stepLine style (p.run (.reduce (k + 1))).1) ∘ Nat.succ =
      fun k => stepLine style ((p.run (.reduce 1)).1.run (.reduce (k + 1))).1 := by
    funext k
    rw [Program.run_reduce_add (k + 1) h, Nat.add_comm 1 (k + 1), Function.comp_apply]
  unfold stepLines
  dsimp only
  rw [← hshift, List.range_succ_eq_map, List.map_cons, List.map_map, List.cons_append, hline]
  simp only [Nat.zero_add, Nat.add_right_cancel_iff, Nat.add_right_comm, ← Nat.add_assoc]

theorem steps_of_no_step (more : Nat)
    (h : ¬ ((p.store.reduce p.process 1).failure = none ∧ (p.store.reduce p.process 1).steps = 1)) :
    (p.store.reduce p.process (more + 1)).steps = 0 ∧
      (p.store.reduce p.process (more + 1)).failure = (p.store.reduce p.process 1).failure := by
  unfold Store.reduce at h ⊢
  rw [Store.reduceFrom, Store.reduceFrom]
  rw [Store.reduceFrom] at h
  cases hq : p.store.reduceOnce p.process with
  | error e => exact ⟨rfl, rfl⟩
  | ok found =>
    cases found with
    | none => exact ⟨rfl, rfl⟩
    | some q =>
      rw [hq] at h
      exact (h ⟨rfl, rfl⟩).elim

theorem reduceSteps_eq (style : Style) (taken more : Nat) (p : Program) :
    (reduceSteps style taken more p).1.stdout = (stepLines style taken more p).stdout ∧
      (reduceSteps style taken more p).2 = (p.store.reduce p.process more).failure := by
  induction more generalizing taken p with
  | zero => exact ⟨rfl, rfl⟩
  | succ more ih =>
    obtain ⟨events, heq⟩ := reduceSteps_succ style taken more p
    rw [heq]
    split
    · next hstep =>
      obtain ⟨hlines, hfailure⟩ := ih (taken + 1) (p.run (.reduce 1)).1
      -- A reduction by one step more goes on where this step has stopped.
      have hlater := Program.reduce_add more hstep.1
      refine ⟨?_, ?_⟩
      · rw [stepLines_succ hstep.1 hstep.2, ← List.singleton_append,
          ← List.singleton_append (l := stepLines ..)]
        simp only [Transcript.stdout_append, Transcript.stdout_log, hlines, String.empty_append]
      · rw [Nat.add_comm more 1, ← hlater.failure]
        exact hfailure
    · next hend =>
      obtain ⟨hsteps, hfailure⟩ := steps_of_no_step more hend
      refine ⟨?_, hfailure.symm⟩
      rw [stepLines, hsteps, Transcript.stdout_log, if_neg more.succ_ne_zero.symm]
      rfl

theorem run_reduce (style : Style) (n : Nat) (p : Program) :
    let bound := (p.run .bind).1
    ((reduce n).run style p).1.stdout =
        Transcript.stdout (style.respond bound.calculi :: stepLines style 0 n bound) ∧
      ((reduce n).run style p).2 = (bound.store.reduce bound.process n).failure := by
  intro bound
  obtain ⟨hlines, hfailure⟩ := reduceSteps_eq style 0 n bound
  refine ⟨?_, hfailure⟩
  change Transcript.stdout (style.log _ ++ style.respond bound.calculi ::
    (reduceSteps style 0 n bound).1) = _
  rw [← List.singleton_append, ← List.singleton_append (l := stepLines ..)]
  simp only [Transcript.stdout_append, Transcript.stdout_log, hlines, String.empty_append]

end FileCommand

namespace Program

variable {p : Program} {n k : Nat}

theorem reduce_of_result (h : (p.run (.reduce n)).2.result = .ok (.count k)) :
    (p.store.reduce p.process n).failure = none ∧ (p.store.reduce p.process n).steps = k := by
  rw [result_reduce] at h
  cases hfailure : (p.store.reduce p.process n).failure with
  | some e =>
    rw [hfailure] at h
    cases h
  | none =>
    rw [hfailure, Option.elim_none, Except.ok.injEq, Operation.Value.count.injEq] at h
    exact ⟨rfl, h⟩

/-- After a reduction that has not used up its steps nothing is due. -/
theorem result_reduceOnce_of_lt (h : (p.run (.reduce n)).2.result = .ok (.count k)) (hlt : k < n) :
    ((p.run (.reduce n)).1.run .reduceOnce).2.result = .ok (.flag false) := by
  obtain ⟨hfailure, hsteps⟩ := reduce_of_result h
  have hended := Store.ended_reduceFrom 0 n p.store p.process
  rw [Nat.zero_add, ← Store.reduce] at hended
  cases hended with
  | full steps => exact absurd (hsteps.symm.trans steps) (Nat.ne_of_lt hlt)
  | failed _ failure =>
    rw [hfailure] at failure
    cases failure
  | irreducible _ _ attempt =>
    have hsame := (Store.agreesOn_retain _ _).reduceOnce (s := (p.store.reduce p.process n).store)
      (p := (p.store.reduce p.process n).process)
    rw [attempt] at hsame
    rw [run_reduce_fst, run, Operation.run]
    generalize Store.reduceOnce _ _ = again at hsame ⊢
    cases hsame
    rfl

theorem count_reduce (h : (p.run (.reduce n)).2.result = .ok (.count k)) :
    k ≤ n ∧ ∀ sent, (p.run (.reduce n)).1.process.useCount sent + k = p.process.useCount sent := by
  obtain ⟨-, rfl⟩ := reduce_of_result h
  refine ⟨?_, fun sent => Store.useCount_reduceFrom 0 n p.store p.process sent⟩
  have hended := Store.ended_reduceFrom 0 n p.store p.process
  rw [Nat.zero_add, ← Store.reduce] at hended
  cases hended with
  | full steps => exact Nat.le_of_eq steps
  | irreducible steps => exact Nat.le_of_lt steps
  | failed steps => exact Nat.le_of_lt steps

theorem result_reduce_add {m : Nat} (h : (p.run (.reduce m)).2.result = .ok (.count k)) (n : Nat) :
    let second := (p.run (.reduce m)).1.run (.reduce n)
    let whole := p.run (.reduce (m + n))
    (∀ l, second.2.result = .ok (.count l) ↔ whole.2.result = .ok (.count (k + l))) ∧
      ∀ e, second.2.result = .error e ↔ whole.2.result = .error e := by
  obtain ⟨hfailure, rfl⟩ := reduce_of_result h
  obtain ⟨-, -, hsame, hsteps⟩ := reduce_add n hfailure
  dsimp only
  rw [result_reduce, result_reduce p, ← hsame, ← hsteps]
  cases Reduction.failure _ with
  | some e => simp
  | none =>
    simp only [Option.elim_none, Except.ok.injEq, Operation.Value.count.injEq, reduceCtorEq,
      implies_true, and_true]
    intro l
    omega

theorem reduce_ends_and_adds (p : Program) :
    (∀ q, p.store.reduceOnce p.process = .ok (some q) → Store.Consumes p.process q) ∧
    (∀ n k, (p.run (.reduce n)).2.result = .ok (.count k) →
      k ≤ n ∧ k ≤ min (p.process.useCount true) (p.process.useCount false) ∧
        (∀ sent, (p.run (.reduce n)).1.process.useCount sent + k = p.process.useCount sent) ∧
        (k < n → ((p.run (.reduce n)).1.run .reduceOnce).2.result = .ok (.flag false))) ∧
    (∀ m n k, (p.run (.reduce m)).2.result = .ok (.count k) →
      let second := (p.run (.reduce m)).1.run (.reduce n)
      let whole := p.run (.reduce (m + n))
      second.1 = whole.1 ∧
        (∀ l, second.2.result = .ok (.count l) ↔ whole.2.result = .ok (.count (k + l))) ∧
        ∀ e, second.2.result = .error e ↔ whole.2.result = .error e) ∧
    ∀ style n,
      let bound := (p.run .bind).1
      ((FileCommand.reduce n).run style p).1.stdout =
          Transcript.stdout (style.respond bound.calculi :: FileCommand.stepLines style 0 n bound) ∧
        ((FileCommand.reduce n).run style p).2 = (bound.store.reduce bound.process n).failure := by
  refine ⟨fun q => Store.consumes_of_reduceOnce, fun n k h => ?_, fun m n k h => ?_,
    fun style n => FileCommand.run_reduce style n p⟩
  · obtain ⟨hle, hcount⟩ := count_reduce h
    have hfewer : ∀ sent, k ≤ p.process.useCount sent := fun sent =>
      hcount sent ▸ Nat.le_add_left ..
    exact ⟨hle, le_min (hfewer true) (hfewer false), hcount, result_reduceOnce_of_lt h⟩
  · exact ⟨run_reduce_add n (reduce_of_result h).1, result_reduce_add h n⟩

/-- A run of two steps that could have been longer, and as it goes on after its first step. -/
theorem reduce_ends_and_adds_resumed :
    ∃ p, Program.parse "(new c)(c<a> | c(x).(x<b> | a(y).0))" = .ok p ∧
      (p.run (.reduce 1)).2.result = .ok (.count 1) ∧
      (p.run (.reduce 3)).2.result = .ok (.count 2) ∧
      ((p.run (.reduce 3)).1.run .reduceOnce).2.result = .ok (.flag false) ∧
      ((p.run (.reduce 1)).1.run (.reduce 2)).1 = (p.run (.reduce 3)).1 ∧
      ((p.run (.reduce 1)).1.run (.reduce 2)).2.result = .ok (.count 1) := by
  obtain ⟨p, parsed, hnone, hone, hnone', hthree⟩ : ∃ p,
      Program.parse "(new c)(c<a> | c(x).(x<b> | a(y).0))" = .ok p ∧
      (p.store.reduce p.process 1).failure.isNone ∧ (p.store.reduce p.process 1).steps = 1 ∧
      (p.store.reduce p.process 3).failure.isNone ∧ (p.store.reduce p.process 3).steps = 2 := by
    decide +kernel
  have hfirst : (p.run (.reduce 1)).2.result = .ok (.count 1) := by
    rw [result_reduce, Option.isNone_iff_eq_none.mp hnone, hone]
    rfl
  have hwhole : (p.run (.reduce 3)).2.result = .ok (.count 2) := by
    rw [result_reduce, Option.isNone_iff_eq_none.mp hnone', hthree]
    rfl
  obtain ⟨-, hends, hadds, -⟩ := reduce_ends_and_adds p
  obtain ⟨-, -, -, hnothing⟩ := hends 3 2 hwhole
  obtain ⟨hsame, htotal, -⟩ := hadds 1 2 1 hfirst
  exact ⟨p, parsed, hfirst, hwhole, hnothing (by decide), hsame, (htotal 1).mpr hwhole⟩

end Program

end PiCalculus
