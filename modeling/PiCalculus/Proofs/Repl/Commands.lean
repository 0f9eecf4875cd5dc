import Mathlib
import PiCalculus.Proofs.Binding.Renaming
import PiCalculus.Proofs.Operation.Runs
import PiCalculus.Proofs.Operation.Untyped
import PiCalculus.Proofs.Typing.Assignments
import PiCalculus.Proofs.Typing.Checking
import PiCalculus.Repl

/-! What the commands on the last process of a session depend on. All of them resolve the occurrences
first, and resolving them again changes nothing. So what a listing leaves behind is for every command
what was there before, and what writing Go leaves behind differs in types, which only the writing of Go
looks at. -/

namespace PiCalculus

namespace Transcript

theorem stdout_append (t u : Transcript) :
    Transcript.stdout (t ++ u) = Transcript.stdout t ++ Transcript.stdout u := by
  unfold stdout
  rw [List.map_append, String.join_append]

theorem stdout_log (style : Style) (events : List Event) :
    Transcript.stdout (style.log events) = "" := by
  unfold stdout Style.log
  rw [List.map_map]
  induction events.filter fun e => e.isWarning || style.verbose with
  | nil => rfl
  | cons e events ih =>
    rw [List.map_cons, String.join_cons, ih]
    rfl

theorem stdout_failure (style : Style) (e : Error) :
    Transcript.stdout ((Failure.calculus e).transcript style) = "" := by
  cases e <;> rfl

end Transcript

theorem Store.Plain.reduce {s : Store} (h : s.Plain) (p : Process Name) (n : Nat) :
    (s.reduce p n).store.Plain := by
  refine Store.reduce_induction (motive := fun s _ => s.Plain) n h ?_
  intro s p q hs hq
  obtain ⟨path, ps, r, -, -, rfl⟩ := Store.of_reduceOnce hq
  exact hs.relabel _ _

namespace Program

open Process

variable {p q : Program} {t : Store}

section resolved

variable (h : p.held.Retypes t)

include h

theorem bound_of_retypes : (⟨p.bound, t⟩ : Program).bound = p.bound := by
  have hlabel : ∀ n ∈ p.bound.occurrences, t.label (id n) = p.store.label n := fun n hn => by
    rw [id, h.label_eq, label_held hn]
  have hbind := bind_map hlabel
  rw [Process.map_id, Process.map_id] at hbind
  rw [bound, hbind]
  exact bind_bind p.process

theorem retain_of_retypes : t.retain p.bound.occurrences = t := by
  apply Store.retain_eq_self
  intro n hn
  rw [h.isLive_eq] at hn
  exact mem_of_isLive_held hn

theorem held_of_retypes : (⟨p.bound, t⟩ : Program).held = t := by
  rw [held, bound_of_retypes h]
  exact retain_of_retypes h

end resolved

theorem calculi_eq (p : Program) : p.calculi = p.held.calculi p.bound := by
  have hlabel : p.bound.map p.held.label = p.bound.map p.store.label :=
    map_congr fun n hn => label_held hn
  unfold calculi Store.calculi
  rw [hlabel, bound, map_bind]

theorem list_eq (h : p.held.Plain) (style : Style) :
    p.list style = (⟨p.bound, p.held⟩, style.log (p.process.hidden p.store.label)
      ++ (⟨p.bound, (p.held.identifySorts p.bound).store⟩ : Program).subprocessLines style,
      none) := by
  obtain ⟨sorted, hidentify, hlive, hreset⟩ := h.reset_identified p.bound
  have hsorted : sorted.retain p.bound.occurrences = sorted := by
    apply Store.retain_eq_self
    intro n hn
    rw [hlive] at hn
    exact mem_of_isLive_held hn
  have hheld : p.held.retain p.bound.occurrences = p.held := retain_of_retypes (.refl _)
  have hidentified : (⟨p.bound, p.held⟩ : Program).run .identifySorts =
      (⟨p.bound, sorted⟩, ⟨p.bound, sorted, .ok .none, []⟩) := by
    rw [run, Operation.run, hidentify]
    exact congrArg (fun s => (Program.mk p.bound s, _)) hsorted
  have hback : (⟨p.bound, sorted⟩ : Program).run .resetSorts =
      (⟨p.bound, p.held⟩, ⟨p.bound, p.held, .ok .none, []⟩) := by
    rw [run, Operation.run, hreset]
    exact congrArg (fun s => (Program.mk p.bound s, _)) hheld
  have hbind : p.run .bind = (⟨p.bound, p.held⟩,
    ⟨p.bound, p.store, .ok .none, p.process.hidden p.store.label⟩) := rfl
  rw [list, hbind, hidentify]
  dsimp only
  rw [hidentified]
  dsimp only
  rw [hback]

/-- What one step of reduction leaves behind. -/
def stepped (p : Program) : Program :=
  let r := p.held.reduce p.bound 1
  ⟨r.process, r.store.retain r.process.occurrences⟩

theorem reduceLast_eq (style : Style) (p : Program) :
    (Repl.reduceLast style p).1 = p.stepped ∧
      (Repl.reduceLast style p).2.1.stdout =
        Transcript.stdout [style.respond ("Reducing: " ++ p.calculi)] ++
          match (p.held.reduce p.bound 1).failure with
          | some _ => ""
          | none => Transcript.stdout [style.respond p.stepped.calculi] := by
  have hbind : p.run .bind = (⟨p.bound, p.held⟩,
    ⟨p.bound, p.store, .ok .none, p.process.hidden p.store.label⟩) := rfl
  have hreduce : (⟨p.bound, p.held⟩ : Program).run (.reduce 1) =
      (p.stepped, ⟨_, _, _, (p.held.reduce p.bound 1).events⟩) := rfl
  have hwritten : ∀ piece (noticed told : List Event) (rest : Transcript),
      Transcript.stdout (piece :: style.log noticed ++ style.log told ++ rest) =
        Transcript.stdout [piece] ++ rest.stdout := by
    intro piece noticed told rest
    rw [← List.singleton_append, Transcript.stdout_append, Transcript.stdout_append,
      Transcript.stdout_append, Transcript.stdout_log, Transcript.stdout_log, String.append_empty,
      String.append_empty]
  rw [Repl.reduceLast, hbind]
  dsimp only
  rw [hreduce]
  dsimp only
  cases (p.held.reduce p.bound 1).failure with
  | some e =>
    have hnothing := hwritten (style.respond ("Reducing: " ++ p.calculi))
      (p.process.hidden p.store.label) (p.held.reduce p.bound 1).events []
    rw [List.append_nil] at hnothing
    exact ⟨rfl, hnothing⟩
  | none => exact ⟨rfl, hwritten ..⟩

/-- What the search for types leaves behind. -/
def inferred (p : Program) : Program := ⟨p.bound, (p.held.inferAndUnify p.bound).store⟩

theorem generate_fst (p : Program) (options : Option Code.Options) (limit : Option Nat) :
    (p.run (.generate options limit)).1 = p.inferred := by
  have hretained := retain_of_retypes (p.held.retypes_inferAndUnify p.bound)
  exact congrArg (Program.mk p.bound) hretained

theorem generateLast_fst (style : Style) (p : Program) :
    (Repl.generateLast style p).1 = p.inferred := by
  rw [← p.generate_fst (some ⟨false, false⟩) none]
  unfold Repl.generateLast
  dsimp only
  split <;> rfl

/-- The code that is written depends on the resolved process and its store alone. -/
theorem generate_result_congr (hbound : q.bound = p.bound) (hheld : q.held = p.held)
    (options : Option Code.Options) (limit : Option Nat) :
    (q.run (.generate options limit)).2.result = (p.run (.generate options limit)).2.result := by
  have hcalculi : q.store.calculi q.process = p.store.calculi p.process := by
    have hq := q.calculi_eq
    rw [hbound, hheld, ← p.calculi_eq] at hq
    exact hq
  have hbind : q.process.bind q.store.label = p.process.bind p.store.label := hbound
  have hretain : q.store.retain ([] ++ (p.process.bind p.store.label).occurrences) =
      p.store.retain ([] ++ (p.process.bind p.store.label).occurrences) := by
    rw [← hbind]
    exact hheld.trans (by rw [held, ← hbound]; rfl)
  simp only [run, Operation.run, Operation.typecheck, hbind, hretain, hcalculi]

theorem stdout_generateLast (style : Style) (p : Program) :
    (Repl.generateLast style p).2.1.stdout =
      match (p.run (.generate (some ⟨false, false⟩) none)).2.result with
      | .ok (.text code) => Transcript.stdout [style.respond ("/* start generated code */\n\n" ++ code
          ++ "\n\n/* end generated code */")]
      | _ => "" := by
  unfold Repl.generateLast
  dsimp only
  split
  · next e he =>
    rw [he]
    exact Transcript.stdout_log ..
  · next code hcode =>
    rw [hcode, Transcript.stdout_append, Transcript.stdout_log, String.empty_append]
  · next value hother hvalue =>
    rw [hvalue]
    split
    · next code heq =>
      cases heq
      exact (hother code rfl).elim
    · exact Transcript.stdout_log ..

theorem plain_list (h : p.store.Plain) (style : Style) : (p.list style).1.store.Plain := by
  rw [list_eq (h.retain _)]
  exact h.retain _

theorem plain_reduceLast (h : p.store.Plain) (style : Style) :
    (Repl.reduceLast style p).1.store.Plain := by
  rw [(reduceLast_eq style p).1]
  have hreduced := (h.retain p.bound.occurrences).reduce p.bound 1
  exact hreduced.retain _

theorem plain_generateLast (h : p.store.Plain) (style : Style) :
    (Repl.generateLast style p).1.store.Plain := by
  rw [generateLast_fst]
  exact (p.held.retypes_inferAndUnify p.bound).plain (h.retain _)

/-- Two programs that are the same to whoever resolves their occurrences first, except that their
types may differ unless `typed` holds. -/
structure Indistinct (typed : Prop) (p q : Program) : Prop where
  plain : p.held.Plain
  bound_eq : q.bound = p.bound
  retypes : p.held.Retypes q.held
  types : typed → q.held = p.held

namespace Indistinct

variable {typed : Prop} {u : Store}

theorem refl (h : p.store.Plain) : Indistinct typed p p :=
  ⟨h.retain _, rfl, .refl _, fun _ => rfl⟩

/-- What resolving the occurrences leaves behind is the same as what was there before. -/
theorem of_retypes (h : p.store.Plain) (ht : p.held.Retypes t) (htyped : typed → t = p.held) :
    Indistinct typed p ⟨p.bound, t⟩ := by
  refine ⟨h.retain _, bound_of_retypes ht, ?_, fun htypes => ?_⟩
  · rwa [held_of_retypes ht]
  · rw [held_of_retypes ht, htyped htypes]

theorem of_list (h : p.store.Plain) (style : Style) : Indistinct typed p (p.list style).1 := by
  rw [list_eq (h.retain _)]
  exact of_retypes h (.refl _) fun _ => rfl

theorem of_generateLast (h : p.store.Plain) (style : Style) :
    Indistinct False p (Repl.generateLast style p).1 := by
  rw [generateLast_fst]
  exact of_retypes h (p.held.retypes_inferAndUnify p.bound) False.elim

theorem of_store {r : Process Name} (hplain : t.Plain) (h : t.Retypes u) (htyped : typed → u = t) :
    Indistinct typed ⟨r, t⟩ ⟨r, u⟩ := by
  have hbound : (⟨r, u⟩ : Program).bound = (⟨r, t⟩ : Program).bound := by
    have hlabel : u.label = t.label := funext h.label_eq
    rw [bound, bound, hlabel]
  refine ⟨hplain.retain _, hbound, ?_, fun htypes => ?_⟩
  · rw [held, held, hbound]
    exact h.retain _
  · rw [held, held, hbound, htyped htypes]

variable (h : Indistinct typed p q)

include h

/-- They stay so when types are written to both after their occurrences were resolved. -/
theorem resolved (ht : p.held.Retypes t) (hu : q.held.Retypes u) (htyped : typed → u = t) :
    Indistinct typed ⟨p.bound, t⟩ ⟨q.bound, u⟩ := by
  rw [h.bound_eq]
  exact of_store (ht.plain h.plain) (ht.symm.trans (h.retypes.trans hu)) htyped

theorem calculi_eq : q.calculi = p.calculi := by
  have hlabel : q.held.label = p.held.label := funext h.retypes.label_eq
  rw [q.calculi_eq, p.calculi_eq, Store.calculi, Store.calculi, hlabel, h.bound_eq]

theorem list (style : Style) : Indistinct typed (p.list style).1 (q.list style).1 ∧
    (q.list style).2.1.stdout = (p.list style).2.1.stdout := by
  rw [list_eq h.plain, list_eq (h.retypes.plain h.plain)]
  refine ⟨h.resolved (.refl _) (.refl _) h.types, ?_⟩
  have hsorted : (p.held.identifySorts p.bound).store.Retypes
      (q.held.identifySorts p.bound).store := h.retypes.identifySorts h.plain p.bound
  dsimp only
  rw [Transcript.stdout_append, Transcript.stdout_append, Transcript.stdout_log,
    Transcript.stdout_log, h.bound_eq, subprocessLines_congr hsorted]

theorem reduceLast (style : Style) :
    Indistinct typed (Repl.reduceLast style p).1 (Repl.reduceLast style q).1 ∧
      (Repl.reduceLast style q).2.1.stdout = (Repl.reduceLast style p).2.1.stdout := by
  obtain ⟨hp, hwritten⟩ := reduceLast_eq style p
  obtain ⟨hq, hwritten'⟩ := reduceLast_eq style q
  obtain ⟨hprocess, -, hfailure, hstore⟩ := h.retypes.reduceFrom 0 1 p.bound
  have hstepped : Indistinct typed p.stepped q.stepped := by
    unfold stepped Store.reduce
    rw [h.bound_eq]
    dsimp only
    rw [hprocess]
    refine of_store ((h.plain.reduce p.bound 1).retain _) (hstore.retain _) fun htypes => ?_
    rw [h.types htypes]
  have hfailed : (q.held.reduce q.bound 1).failure = (p.held.reduce p.bound 1).failure := by
    rw [h.bound_eq]
    exact hfailure
  rw [hp, hq, hwritten, hwritten', h.calculi_eq, hfailed, hstepped.calculi_eq]
  exact ⟨hstepped, rfl⟩

theorem generateLast (style : Style) :
    Indistinct typed (Repl.generateLast style p).1 (Repl.generateLast style q).1 ∧
      (typed → (Repl.generateLast style q).2.1.stdout = (Repl.generateLast style p).2.1.stdout) := by
  constructor
  · rw [generateLast_fst, generateLast_fst]
    refine h.resolved (p.held.retypes_inferAndUnify p.bound) (q.held.retypes_inferAndUnify q.bound)
      fun htypes => ?_
    rw [h.types htypes, h.bound_eq]
  · intro htypes
    rw [stdout_generateLast, stdout_generateLast,
      generate_result_congr h.bound_eq (h.types htypes)]

end Indistinct

end Program

end PiCalculus
