import Mathlib
import PiCalculus.Proofs.Binding.Orderly

/-! Operations one after the other on a program, whether they succeed or not. However long it goes
on, no operation brings a name out of the node that introduces it. -/

namespace PiCalculus

/-- What holds at first and is kept by every step with its tidying holds after a reduction. -/
theorem Store.reduce_induction {motive : Store → Process Name → Prop} {s : Store}
    {p : Process Name} (n : Nat) (start : motive s p)
    (step : ∀ s p q, motive s p → s.reduceOnce p = .ok (some q) →
      motive q.store (q.process.simplify q.store.label)) :
    motive (s.reduce p n).store (s.reduce p n).process := by
  induction n with
  | zero => exact start
  | succ n ih =>
    rcases s.reduce_succ p n with ⟨q, hq, -, -, hstore, hprocess⟩ | ⟨-, hstore, hprocess⟩
    · rw [hstore, hprocess]
      exact step _ _ q ih hq
    · rwa [hstore, hprocess]

theorem Store.label_retain {owned : List Name} {n : Name} (s : Store) (hn : n ∈ owned) :
    (s.retain owned).label n = s.label n := by
  rw [label, get?_retain, if_pos hn, label]

namespace Program

def runAll : Program → List Operation → Program
  | p, [] => p
  | p, op :: ops => (p.run op).1.runAll ops

/-- What holds at first and is kept by every operation holds in the end. -/
theorem runAll_induction {motive : Program → Prop} {p : Program} {ops : List Operation}
    (start : motive p) (step : ∀ op ∈ ops, ∀ q, motive q → motive (q.run op).1) :
    motive (p.runAll ops) := by
  induction ops generalizing p with
  | nil => exact start
  | cons op ops ih =>
    refine ih (step op List.mem_cons_self p start) fun op hop => ?_
    exact step op (List.mem_cons_of_mem _ hop)

end Program

namespace Process.Orderly

variable {held : List Name} {s : Store} {p : Process Name}

theorem reduceOnce (h : p.Orderly) {q : Reduct} (hq : s.reduceOnce p = .ok (some q)) :
    q.process.Orderly := by
  obtain ⟨path, ps, r, hr, -, rfl⟩ := Store.of_reduceOnce hq
  exact h.reduct hr

theorem reduce (h : p.Orderly) (n : Nat) : (s.reduce p n).process.Orderly := by
  apply Store.reduce_induction (motive := fun _ p => p.Orderly) n h
  intro s p q hp hq
  exact (hp.reduceOnce hq).simplify q.store.label

theorem run (h : p.Orderly) (op : Operation) : (op.run held s p).process.Orderly := by
  cases op with
  | bind => exact h.bind s.label
  | check => exact h.bind s.label
  | generate options limit => exact h.bind s.label
  | reduceOnce =>
    rw [Operation.run]
    split
    · exact h
    · exact h
    · next q hq => exact h.reduceOnce hq
  | reduce n => exact h.reduce n
  | simplify => exact h.simplify s.label
  | _ => exact h

theorem of_parse {source : String} {p : Program} (parsed : Program.parse source = .ok p) :
    p.process.Orderly := by
  obtain ⟨written, -, rfl⟩ := Program.parse_eq_ok_iff_all.mp parsed
  exact .of_nodup (Store.empty.load_occurrences_nodup written)

theorem runAll {p : Program} (h : p.process.Orderly) (ops : List Operation) :
    (p.runAll ops).process.Orderly :=
  Program.runAll_induction h fun op _ _ hq => Orderly.run hq op

end Process.Orderly
end PiCalculus
