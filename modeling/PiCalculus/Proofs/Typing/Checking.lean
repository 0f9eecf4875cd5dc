import Mathlib
import PiCalculus.Proofs.Store.Acyclic
import PiCalculus.Proofs.Store.Comparing
import PiCalculus.Proofs.Typing.Unification

/-! What can be relied on after a program has been checked: at every receive the final type of the
channel fits the variables, but for names that unification left undecided there. -/

namespace PiCalculus

open Process

namespace Store

theorem type_load {written : Process Occurrence} {n : Name}
    (h : n ∈ (Store.empty.load written).1.occurrences) :
    (Store.empty.load written).2.type n = .untyped ∨
      ∃ hint, (Store.empty.load written).2.type n = .base hint := by
  obtain ⟨⟨label, hint, span⟩, -, he⟩ := Store.empty.get?_load written h
  rw [type_of_get? he]
  cases hint with
  | none => exact .inl rfl
  | some hint => exact .inr ⟨hint, rfl⟩

def carried (s : Store) (chan : Name) : List (Ty Name) :=
  match s.deref (s.type chan) with
  | .chan elem => elem.elements
  | _ => []

theorem exists_chan_of_mem_carried {s : Store} {chan : Name} {t : Ty Name} (h : t ∈ s.carried chan) :
    ∃ elem, s.deref (s.type chan) = .chan elem ∧ elem.elements = s.carried chan := by
  cases hd : s.deref (s.type chan) with
  | chan elem => exact ⟨elem, rfl, by rw [carried, hd]⟩
  | _ =>
    rw [carried, hd] at h
    cases h

end Store

namespace Program

variable {source : String} {p : Program}

instance (result : Except Error Operation.Value) : Decidable (result = .ok .none) :=
  match result with
  | .ok .none => .isTrue rfl
  | .ok (.flag _) | .ok (.count _) | .ok (.text _) | .error _ => .isFalse nofun

/-- The process of which types are inferred, and the store at that time. -/
def bound (p : Program) : Process Name := p.process.bind p.store.label

def held (p : Program) : Store := p.store.retain p.bound.occurrences

theorem held_get? {n : Name} (h : n ∈ p.bound.occurrences) : p.held.get? n = p.store.get? n := by
  rw [held, Store.get?_retain, if_pos h]

theorem mem_of_isLive_held {n : Name} (hn : p.held.isLive n) : n ∈ p.bound.occurrences := by
  by_contra hout
  rw [Store.isLive, held, Store.get?_retain, if_neg hout] at hn
  cases hn

theorem label_held {n : Name} (hn : n ∈ p.bound.occurrences) : p.held.label n = p.store.label n := by
  rw [Store.label, Store.label, held_get? hn]

theorem isLive_held (parsed : Program.parse source = .ok p) :
    ∀ n ∈ p.bound.occurrences, p.held.isLive n := by
  intro n hn
  rw [Store.isLive, held_get? hn]
  exact (bound_of_parse parsed).live n hn

theorem isLive_held_of_use (parsed : Program.parse source = .ok p) :
    ∀ use ∈ p.bound.uses, ∀ n ∈ use.names, p.held.isLive n := fun _ huse n hn =>
  isLive_held parsed n (names_subset_occurrences huse hn)

theorem inferring_held (parsed : Program.parse source = .ok p) : p.held.Inferring := by
  have htype : ∀ n, p.held.type n = .untyped ∨ ∃ hint, p.held.type n = .base hint := by
    intro n
    by_cases hn : n ∈ p.bound.occurrences
    · have hsame : p.held.type n = p.store.type n := by
        rw [Store.type, Store.type, held_get? hn]
      rw [hsame]
      have hocc : n ∈ p.process.occurrences :=
        (mem_occurrences_bindIn hn).resolve_left List.not_mem_nil
      obtain ⟨written, -, rfl⟩ := parse_eq_ok_iff_all.mp parsed
      exact Store.type_load hocc
    · refine .inl (Store.type_of_get?_none ?_)
      rw [held, Store.get?_retain, if_neg hn]
  refine ⟨fun n => ?_, fun n m => ?_⟩
  · rcases htype n with h | ⟨hint, h⟩
    · exact h ▸ .untyped
    · exact h ▸ .base hint
  · rcases htype n with h | ⟨hint, h⟩ <;> simp [h]

variable (p) in
theorem result_check : (p.run .check).2.result =
    (p.held.inferAndUnify p.bound).result.map fun _ => .none := rfl

/-- A check that succeeds has inferred all types and has unified them to the end. -/
theorem of_check (ok : (p.run .check).2.result = .ok .none) :
    ∃ inferred, p.held.infer p.bound = ⟨inferred, none⟩ ∧
      inferred.unify p.bound = ⟨(p.run .check).2.store, none⟩ := by
  have hstore : (p.run .check).2.store = (p.held.inferAndUnify p.bound).store := rfl
  rw [result_check] at ok
  rw [hstore]
  unfold Store.inferAndUnify at ok ⊢
  cases hinferred : p.held.infer p.bound with
  | mk inferred failure =>
    rw [hinferred] at ok
    cases failure with
    | some e => cases ok
    | none =>
      refine ⟨inferred, rfl, ?_⟩
      cases hunified : inferred.unify p.bound with
      | mk final failure =>
        dsimp only at ok
        rw [hunified] at ok
        cases failure with
        | some e => cases ok
        | none => exact congrArg (Written.mk · none) (congrArg Written.store hunified).symm

/-- A check that finds a conflict has inferred all types and has met it in unification. -/
theorem exists_unify_of_check {e : TypeError}
    (fails : (p.run .check).2.result = .error (.type e)) :
    ∃ inferred, p.held.infer p.bound = ⟨inferred, none⟩ ∧
      inferred.unify p.bound = ⟨(p.run .check).2.store, some (.type e)⟩ := by
  apply Store.exists_unify_of_inferAndUnify
  have hstore : (p.run .check).2.store = (p.held.inferAndUnify p.bound).store := rfl
  rw [result_check] at fails
  rw [hstore]
  generalize p.held.inferAndUnify p.bound = written at fails ⊢
  obtain ⟨u, _ | failure⟩ := written
  · cases fails
  · obtain rfl : failure = .type e := by
      simpa [Written.result, Except.map] using fails
    rfl

/-- The store when unification has visited so many receives of the program. -/
def unifiedTo (p : Program) (i : Nat) : Store := (p.held.infer p.bound).store.unifiedTo p.bound i

/-- What a check does to a program that was read: it finds types by inference and then fills them in,
and at every receive it joins the channel and the variables. -/
structure Checks (p : Program) (inferred final : Store) : Prop where
  infers : p.held.infer p.bound = ⟨inferred, none⟩
  inferring : inferred.Inferring
  retypes : p.held.Retypes final
  shallow : final.Shallow
  fills : inferred.Fills final
  joins : ∀ i chan vars, p.bound.receives[i]? = some (chan, vars) →
    ∃ elem, final.deref (final.type chan) = .chan elem ∧ elem.arity = vars.length ∧
      ∀ q ∈ elem.elements.zip vars,
        final.equalAssuming (p.unifiedTo i).undecided q.1 (final.type q.2) = true

theorem checks (parsed : Program.parse source = .ok p)
    (ok : (p.run .check).2.result = .ok .none) :
    ∃ inferred, p.Checks inferred (p.run .check).2.store := by
  obtain ⟨inferred, hinferred, hunified⟩ := of_check ok
  obtain ⟨hinferring, hretypes⟩ :=
    (inferring_held parsed).writeEach hinferred (isLive_held_of_use parsed)
  have hlive : ∀ n ∈ p.bound.occurrences, inferred.isLive n := fun n hn =>
    (hretypes.isLive_eq n).trans (isLive_held parsed n hn)
  obtain ⟨hshallow, hfills, hjoins⟩ := Store.unify_joins hinferring.shallow hlive hunified
  refine ⟨inferred, hinferred, hinferring, hretypes.trans hfills.retypes, hshallow, hfills, ?_⟩
  intro i chan vars hi
  rw [unifiedTo, hinferred]
  exact hjoins i chan vars hi

/-- After a check every receive is on a channel that carries as many names as there are variables,
and their types agree if names that were undecided when the receive was visited do. -/
theorem check_consistent (parsed : Program.parse source = .ok p)
    (ok : (p.run .check).2.result = .ok .none) :
    let final := (p.run .check).2
    ∀ i chan vars, final.process.receives[i]? = some (chan, vars) →
      ∃ elem, final.store.deref (final.store.type chan) = .chan elem ∧
        elem.arity = vars.length ∧
        ∀ q ∈ elem.elements.zip vars,
          final.store.equalAssuming (p.unifiedTo i).undecided q.1 (final.store.type q.2) = true := by
  obtain ⟨inferred, hchecks⟩ := checks parsed ok
  exact hchecks.joins

theorem check_consistent_polyadic :
    ∃ p, Program.parse "(new a)(new b)(new c:T)(a<b,c> | a(y,z).(y<c,z> | y(u,v).0))" = .ok p ∧
      (p.run .check).2.result = .ok .none ∧
      let final := (p.run .check).2
      ∀ i chan vars, final.process.receives[i]? = some (chan, vars) →
        ∃ elem, final.store.deref (final.store.type chan) = .chan elem ∧
          elem.arity = vars.length ∧
          ∀ q ∈ elem.elements.zip vars, final.store.equalAssuming (p.unifiedTo i).undecided q.1
            (final.store.type q.2) = true := by
  obtain ⟨p, hp, ok⟩ :
      ∃ p, Program.parse "(new a)(new b)(new c:T)(a<b,c> | a(y,z).(y<c,z> | y(u,v).0))" = .ok p ∧
        (p.run .check).2.result = .ok .none := by decide +kernel
  exact ⟨p, hp, ok, check_consistent hp ok⟩

/-- The receives on two names of unknown type are found to agree while both are unknown, and then one
of them is given a type. No type is recursive: all references lead to names that were made later. -/
theorem unknown_names_diverge :
    ∃ p, Program.parse "(new a,b)(a<b> | b<p> | a(x).(x<q> | x(z).z<>))" = .ok p ∧
      (p.run .check).2.result = .ok .none ∧
      let final := (p.run .check).2
      (∀ n, ¬ Relation.TransGen final.store.PointsTo n n) ∧
        ∃ chan vars elem, (chan, vars) ∈ final.process.receives ∧
          final.store.deref (final.store.type chan) = .chan elem ∧
          ∃ q ∈ elem.elements.zip vars, final.store.equal q.1 (final.store.type q.2) = false := by
  obtain ⟨p, hp, ok, later, ⟨chan, vars⟩, hreceive, ⟨t, x⟩, hq, differ⟩ :
      ∃ p, Program.parse "(new a,b)(a<b> | b<p> | a(x).(x<q> | x(z).z<>))" = .ok p ∧
        (p.run .check).2.result = .ok .none ∧
        (∀ i < (p.run .check).2.store.size,
          ∀ m ∈ ((p.run .check).2.store.type ⟨i⟩).references, i < m.id) ∧
        ∃ r ∈ (p.run .check).2.process.receives,
          ∃ q ∈ ((p.run .check).2.store.carried r.1).zip r.2,
            (p.run .check).2.store.equal q.1 ((p.run .check).2.store.type q.2) = false := by
    decide +kernel
  obtain ⟨elem, helem, helements⟩ := Store.exists_chan_of_mem_carried (List.of_mem_zip hq).1
  refine ⟨p, hp, ok, Store.not_transGen_pointsTo later, chan, vars, elem, hreceive, helem, (t, x), ?_,
    differ⟩
  rw [helements]
  exact hq

end Program
end PiCalculus
