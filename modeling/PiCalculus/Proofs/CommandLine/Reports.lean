import Mathlib
import PiCalculus.CommandLine
import PiCalculus.Proofs.Code.Limit
import PiCalculus.Proofs.Store.Comparing
import PiCalculus.Proofs.Typing.Checking

/-! What a command on a file tells of a conflict. The conflict is between types that names have in the
end, but it is told when the process is gone. Then no name is left that a reference in these types could
stand for. -/

namespace PiCalculus

/-- What is in conflict: the types of two names, two numbers, or the type of one name. -/
inductive Clash
  | mismatch (m n : Name)
  | arity (got expected : Nat)
  | notAChannel (n : Name)

/-- How a clash is told if names have their types in `s` and references are followed in `t`. -/
def Clash.told (s t : Store) : Clash → Conflict
  | mismatch m n => .mismatch (t.unfold (s.deref (s.type m))) (t.unfold (s.deref (s.type n)))
  | arity got expected => .arity got expected
  | notAChannel n => .notAChannel (t.unfold (s.deref (s.type n)))

namespace Store

variable {s t u : Store} {p : Process Name} {e : TypeError}

theorem unfold_retain_nil (s : Store) (x : Ty Name) :
    (s.retain []).unfold x = x.bind fun _ => .untyped := by
  have hnext : ∀ above n, (s.retain []).next above n = none := by
    intro above n
    rw [next, get?_retain, if_neg List.not_mem_nil]
    exact ite_self none
  rw [unfold]
  cases (s.retain []).size with
  | zero => rw [unfoldWithin]
  | succ k => simp only [unfoldWithin, hnext]

/-- In the type of a name references stand nowhere but for the values that a channel carries. -/
theorem Shallow.unfold_withoutNames (h : s.Shallow) (n : Name) :
    Shape.withoutNames (s.unfold (s.deref (s.type n))) =
      (s.retain []).unfold (s.deref (s.type n)) := by
  have hdirect := s.deref_ne_reference (s.type n)
  have hshallow := h.deref (h n)
  rw [unfold_retain_nil]
  generalize s.deref (s.type n) = x at hdirect hshallow
  cases hshallow with
  | untyped =>
    rw [unfold_untyped, Ty.bind]
    rfl
  | base label =>
    rw [unfold_base, Ty.bind]
    rfl
  | reference => exact absurd rfl (hdirect _)
  | @chan ns live =>
    rw [unfold_chan, Ty.bind]
    by_cases hone : ∃ m, ns = [m]
    · obtain ⟨m, rfl⟩ := hone
      have hne := h.unfoldWithin_ne_composite (x := .reference m) (by simp) s.size []
      rw [Ty.carrying, Ty.bind, unfold]
      generalize s.unfoldWithin s.size [] (.reference m) = shape at hne
      cases shape with
      | composite ts => exact absurd rfl (hne ts)
      | _ => rfl
    · push Not at hone
      rw [Ty.carrying_of_ne_singleton hone, unfold_composite, Shape.withoutNames, Ty.bind,
        List.map_map, List.map_map, List.map_map]
      simp [Function.comp_def, Ty.bind]

theorem Shallow.told_withoutNames (h : s.Shallow) (clash : Clash) :
    (clash.told s s).withoutNames = clash.told s (s.retain []) := by
  cases clash with
  | mismatch m n =>
    rw [Clash.told, Conflict.withoutNames, h.unfold_withoutNames, h.unfold_withoutNames, Clash.told]
  | arity got expected => rfl
  | notAChannel n => rw [Clash.told, Conflict.withoutNames, h.unfold_withoutNames, Clash.told]

/-- A name that a channel carries and a variable that do not match. -/
theorem told_of_unifyVar {chan n var : Name}
    (h : s.unifyVar chan (.reference n) var = ⟨u, some (.type e)⟩) :
    u = s ∧ e.conflict = (Clash.mismatch n var).told u u := by
  have hways := s.unifies_unifyVar chan (.reference n) var
  rw [h] at hways
  obtain ⟨-, rfl⟩ := of_unifyVar_typeError h
  refine ⟨(hways.of_failure_eq_some rfl).1, ?_⟩
  rw [Clash.told, deref_reference]

theorem exists_clash_of_unifyReceive (hs : s.Shallow) {chan : Name} {vars : List Name}
    (hvars : ∀ x ∈ vars, s.isLive x) (h : s.unifyReceive chan vars = ⟨u, some (.type e)⟩) :
    u.Shallow ∧ ∃ clash : Clash, e.conflict = clash.told u u := by
  unfold unifyReceive at h
  split at h
  · next elem helem =>
    split at h
    · obtain ⟨ns, rfl, hns⟩ := hs.deref_eq_chan helem
      rw [Ty.elements_carrying] at h
      have elements : ∀ q ∈ (ns.map Ty.reference).zip vars,
          ∃ n, q.1 = .reference n ∧ s.isLive n ∧ s.isLive q.2 := by
        intro q hq
        obtain ⟨helem, hvar⟩ := List.of_mem_zip hq
        obtain ⟨n, hn, heq⟩ := List.mem_map.mp helem
        exact ⟨n, heq.symm, hns n hn, hvars q.2 hvar⟩
      have step : ∀ q ∈ (ns.map Ty.reference).zip vars, ∀ t v, t.Shallow ∧ s.Fills t →
          t.unifyVar chan q.1 q.2 = ⟨v, none⟩ → v.Shallow ∧ s.Fills v := by
        rintro ⟨x, var⟩ hpair t v ⟨ht, hst⟩ hv
        obtain ⟨n, rfl, hn, hvar⟩ := elements _ hpair
        have hlive := hst.retypes.isLive_eq
        have hjoin := unifyVar_joins ht ((hlive n).trans hn) ((hlive var).trans hvar)
          (fun _ hq => hq) hv
        exact ⟨hjoin.shallow, hst.trans hjoin.fills⟩
      -- The variable where the pass fails leaves the store as the ones before it have made it.
      obtain ⟨⟨x, var⟩, hpair, t, ⟨ht, -⟩, hfails⟩ := writeEach_failure_induction h ⟨hs, .refl s⟩ step
      obtain ⟨n, rfl, -⟩ := elements _ hpair
      obtain ⟨rfl, htold⟩ := told_of_unifyVar hfails
      exact ⟨ht, _, htold⟩
    · cases h
      exact ⟨hs, .arity _ _, rfl⟩
  · cases h
    exact ⟨hs, .notAChannel chan, rfl⟩

theorem exists_clash_of_unify (hs : s.Shallow) (live : ∀ n ∈ p.occurrences, s.isLive n)
    (h : s.unify p = ⟨u, some (.type e)⟩) :
    u.Shallow ∧ ∃ clash : Clash, e.conflict = clash.told u u := by
  have hvars : ∀ r ∈ p.receives, ∀ x ∈ r.2, s.isLive x := fun r hr x hx =>
    live x ((Process.mem_occurrences_of_receives hr).2 x hx)
  obtain ⟨r, hr, t, ⟨ht, hst⟩, hfails⟩ := writeEach_failure_induction
    (motive := fun t => t.Shallow ∧ s.Fills t) h ⟨hs, .refl s⟩
    fun r hr _ _ ht hstep => unifyReceive_keeps (hvars r hr) ht hstep
  have hlive := hst.retypes.isLive_eq
  exact exists_clash_of_unifyReceive ht (fun x hx => (hlive x).trans (hvars r hr x hx)) hfails

end Store

namespace Program

variable {source : String} {p : Program} {e : TypeError}

/-- A check stops where it finds a conflict, and the names have the types there that it tells of. -/
theorem exists_clash_of_check (parsed : Program.parse source = .ok p)
    (fails : (p.run .check).2.result = .error (.type e)) :
    let s := (p.run .check).2.store
    s.Shallow ∧ ∃ clash : Clash, e.conflict = clash.told s s := by
  obtain ⟨inferred, hinferred, hunify⟩ := exists_unify_of_check fails
  obtain ⟨hinferring, hretypes⟩ :=
    (inferring_held parsed).writeEach hinferred (isLive_held_of_use parsed)
  exact Store.exists_clash_of_unify hinferring.shallow
    (fun n hn => (hretypes.isLive_eq n).trans (isLive_held parsed n hn)) hunify

/-- No code is made for a program for which no types are found. -/
theorem run_generate_of_check (options : Option Code.Options) (limit : Option Nat)
    (fails : (p.run .check).2.result = .error (.type e)) :
    (p.run (.generate options limit)).2 = (p.run .check).2 := by
  have hchecked : Operation.typecheck [] p.store p.process = (p.run .check).2 := rfl
  have hrun : (p.run (.generate options limit)).2 = _ :=
    Operation.run_generate options limit [] p.store p.process
  rw [hrun, hchecked]
  generalize (p.run .check).2 = checked at fails ⊢
  rw [fails]
  exact congrArg (Operation.Outcome.mk checked.process checked.store · checked.events) fails.symm

end Program

namespace FileCommand

variable {style : Style} {read : Reader} {command : FileCommand} {file source : String}
  {p : Program} {e : TypeError}

theorem run_of_check (checks : command = .types ∨ ∃ options, command = .codegen options)
    (fails : (p.run .check).2.result = .error (.type e)) :
    command.run style p = (style.log (p.run .check).2.events, some (.type e)) := by
  rcases checks with rfl | ⟨options, rfl⟩
  · rw [run]
    dsimp only
    rw [fails]
  · rw [run]
    dsimp only
    rw [Program.run_generate_of_check (some options) none fails, fails]

/-- A command that finds a conflict ends with it, and reports it by the types that names have where the
check has stopped, but with nothing in the place of the names to which these refer. -/
theorem runFile_conflict (checks : command = .types ∨ ∃ options, command = .codegen options)
    (hread : read file = .ok source) (parsed : Program.parse source = .ok p)
    (fails : (p.run .check).2.result = .error (.type e)) :
    let stopped := (p.run .check).2
    ∃ clash : Clash, e.conflict = clash.told stopped.store stopped.store ∧
      let told := { e with conflict := clash.told stopped.store (stopped.store.retain []) }
      command.runFile style read file = ⟨style.log stopped.events ++ [.report told.report], 1⟩ := by
  intro stopped
  obtain ⟨hshallow, clash, hclash⟩ := Program.exists_clash_of_check parsed fails
  refine ⟨clash, hclash, ?_⟩
  rw [runFile, hread]
  dsimp only
  rw [parsed]
  dsimp only
  rw [run_of_check checks fails, ← hshallow.told_withoutNames, ← hclash]
  rfl

/-- The types in conflict are `chan int` and `chan bool`. -/
example :
    let source := "(new i:int)(new k:bool)(new c)(new d)(c<d> | d<i> | c(x).x<k>)"
    let exit := types.runFile ⟨false, false⟩ (fun _ => .ok source) "conflict.pi"
    exit.code = 1 ∧ exit.transcript.stderr (fun report => report.message) =
      "Type `chan interface\x7b\x7d` and `chan interface\x7b\x7d` do not match." := by
  decide +kernel

end FileCommand

end PiCalculus
