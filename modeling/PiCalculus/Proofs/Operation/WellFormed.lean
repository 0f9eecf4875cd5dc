import Mathlib
import PiCalculus.Proofs.Operation.Runs
import PiCalculus.Proofs.Process.Binary
import PiCalculus.Proofs.Store.Writing
import PiCalculus.Proofs.Typing.Passes

/-! What is true of a program after operations of any number and in any order, as long as none of
them takes labels from outside. It stays a process as they are read, of names that are introduced
once and kept inside their nodes, so it can be written and read again at any time. -/

namespace PiCalculus

theorem IsIdentifier.numbered {label : String} (h : IsIdentifier label) (i : Nat) :
    IsIdentifier (numbered label i) := by
  obtain ⟨c, cs, hlist, hc, hcs, -⟩ := h
  have hnumber : (PiCalculus.numbered label i).toList = c :: (cs ++ '_' :: Nat.toDigits 10 i) := by
    simp [PiCalculus.numbered, hlist]
  refine ⟨c, cs ++ '_' :: Nat.toDigits 10 i, hnumber, hc, fun d hd => ?_, fun hnew => ?_⟩
  · rcases List.mem_append.mp hd with hd | hd
    · exact hcs d hd
    · rcases List.mem_cons.mp hd with rfl | hd
      · decide
      · have hdigit := Nat.isDigit_of_mem_toDigits (by decide) (by decide) hd
        simp [isWordChar, Char.isAlphanum, hdigit]
  · have hmem : '_' ∈ (PiCalculus.numbered label i).toList := by simp [hnumber]
    rw [hnew] at hmem
    exact absurd hmem (by decide)

theorem IsIdentifier.substitution {label : String} (h : IsIdentifier label) {vars values : List String}
    (hv : ∀ v ∈ values, IsIdentifier v) : IsIdentifier (substitution vars values label) := by
  unfold PiCalculus.substitution
  cases hl : (vars.zip values).lookup label with
  | none => exact h
  | some v =>
    obtain ⟨before, after, hzip, -⟩ := List.lookup_eq_some_iff.mp hl
    have hmem : (label, v) ∈ vars.zip values := by simp [hzip]
    exact hv v (List.of_mem_zip hmem).2

namespace Store

variable {s t u : Store} {n : Name}

/-- Whether a name is alive, may be written to and has an identifier for its label. -/
def IsNamed (s : Store) (n : Name) : Prop :=
  ∃ e, s.get? n = some e ∧ e.constant = false ∧ IsIdentifier e.label

theorem IsNamed.isIdentifier (h : s.IsNamed n) : IsIdentifier (s.label n) := by
  obtain ⟨e, he, -, hlabel⟩ := h
  rwa [label, he]

theorem IsNamed.retain (h : s.IsNamed n) {owned : List Name} (hn : n ∈ owned) :
    (s.retain owned).IsNamed n := by
  rwa [IsNamed, get?_retain, if_pos hn]

def Keeps (s t : Store) : Prop := ∀ n, s.IsNamed n → t.IsNamed n

theorem Keeps.refl (s : Store) : s.Keeps s := fun _ h => h

theorem Keeps.trans (h : s.Keeps t) (h' : t.Keeps u) : s.Keeps u := fun n hn => h' n (h n hn)

theorem keeps_write {f : Entry → Entry}
    (hf : ∀ e, s.get? n = some e → IsIdentifier e.label →
      (f e).constant = e.constant ∧ IsIdentifier (f e).label) :
    s.Keeps (s.write n f).store := by
  rintro m ⟨e, he, hconstant, hlabel⟩
  unfold write
  split
  · exact ⟨e, he, hconstant, hlabel⟩
  · by_cases hm : m = n
    · subst hm
      obtain ⟨hsame, hnew⟩ := hf e he hlabel
      exact ⟨f e, by rw [get?_modify, if_pos rfl, he, Option.map_some], hsame.trans hconstant, hnew⟩
    · exact ⟨e, by rw [get?_modify, if_neg hm, he], hconstant, hlabel⟩

theorem keeps_setType (s : Store) (n : Name) (type : Ty Name) :
    s.Keeps (s.setType n type).store :=
  keeps_write fun _ _ hlabel => ⟨rfl, hlabel⟩

theorem keeps_setSort (s : Store) (n : Name) (sort : NameSort) :
    s.Keeps (s.setSort n sort).store :=
  keeps_write fun _ _ hlabel => ⟨rfl, hlabel⟩

theorem keeps_setNumber (s : Store) (n : Name) (i : Nat) :
    s.Keeps (s.setLabel n (s.label n ++ "_" ++ toString i)).store := by
  refine keeps_write fun e he hlabel => ⟨rfl, ?_⟩
  have hold : s.label n = e.label := by rw [label, he]; rfl
  rw [hold]
  exact hlabel.numbered i

/-- A pass keeps what each of its steps keeps, also where it stops. -/
theorem keeps_writeEach {α : Type} {write : Store → α → Written}
    (h : ∀ (s : Store) a, s.Keeps (write s a).store) (s : Store) (as : List α) :
    s.Keeps (writeEach write s as).store := by
  apply writeEach_store_induction (motive := s.Keeps) (.refl s)
  intro a _ t ht
  exact ht.trans (h t a)

variable (s) (p : Process Name)

theorem keeps_identifySorts : s.Keeps (s.identifySorts p).store :=
  keeps_writeEach (fun s n => s.keeps_setSort n _) s _

theorem keeps_inferSortsBySpelling : s.Keeps (s.inferSortsBySpelling p).store := by
  refine keeps_writeEach (fun s n => ?_) s _
  split
  · exact s.keeps_setSort n _
  · exact .refl s

theorem keeps_resetSorts : s.Keeps (s.resetSorts p).store := by
  refine keeps_writeEach (fun s n => ?_) s _
  split
  · exact .refl s
  · exact s.keeps_setSort n _

theorem keeps_makeUnique : s.Keeps (s.makeUnique p).store :=
  keeps_writeEach (fun s (n, i) => s.keeps_setNumber n i) s _

theorem keeps_infer : s.Keeps (s.infer p).store := by
  apply infer_store_induction (motive := s.Keeps) (.refl s)
  intro t ht n names
  exact ht.trans (t.keeps_setType n _)

theorem keeps_unify : s.Keeps (s.unify p).store := by
  apply unify_store_induction (motive := s.Keeps) (.refl s)
  intro _ chan _ _ _ elem _ var t ht
  apply unifyVar_store_induction ht
  intro n type _ _ _
  exact ht.trans (t.keeps_setType n type)

theorem keeps_inferAndUnify : s.Keeps (s.inferAndUnify p).store := by
  apply inferAndUnify_store_induction (s.keeps_infer p)
  intro t ht
  exact ht.trans (t.keeps_unify p)

theorem keeps_relabel (names : List Name) {newLabel : String → String}
    (h : ∀ label, IsIdentifier label → IsIdentifier (newLabel label)) :
    s.Keeps (s.relabel names newLabel) := by
  rintro n ⟨e, he, hconstant, hlabel⟩
  unfold IsNamed
  rw [get?_relabel, he, Option.map_some]
  split
  · exact ⟨_, rfl, hconstant, h _ hlabel⟩
  · exact ⟨e, rfl, hconstant, hlabel⟩

end Store

open Process

/-- A process as they are read, over the store that has its names. -/
structure Store.Supports (s : Store) (p : Process Name) : Prop where
  orderly : p.Orderly
  binary : p.Binary
  named : ∀ n ∈ p.occurrences, s.IsNamed n

namespace Store.Supports

variable {s t : Store} {p : Process Name}

theorem of_keeps (h : s.Supports p) (hk : s.Keeps t) : t.Supports p :=
  ⟨h.orderly, h.binary, fun n hn => hk n (h.named n hn)⟩

theorem retain (h : s.Supports p) {owned : List Name} (ho : p.occurrences ⊆ owned) :
    (s.retain owned).Supports p :=
  ⟨h.orderly, h.binary, fun n hn => (h.named n hn).retain (ho hn)⟩

theorem bind (h : s.Supports p) : s.Supports (p.bind s.label) := by
  refine ⟨h.orderly.bind s.label, h.binary.bindIn s.label [], fun n hn => h.named n ?_⟩
  exact (mem_occurrences_bindIn hn).resolve_left List.not_mem_nil

theorem simplify (h : s.Supports p) : s.Supports (p.simplify s.label) :=
  ⟨h.orderly.simplify s.label, h.binary.simplify s.label,
    fun n hn => h.named n (p.occurrences_simplify_subset s.label hn)⟩

/-- The labels that are put for those of variables stand in the process already. -/
theorem reduceOnce (h : s.Supports p) {q : Reduct} (hq : s.reduceOnce p = .ok (some q)) :
    q.store.Supports q.process := by
  obtain ⟨path, ps, r, hr, -, rfl⟩ := of_reduceOnce hq
  have hvalues : ∀ v ∈ r.values.map s.label, IsIdentifier v := by
    rw [List.forall_mem_map]
    intro v hv
    obtain ⟨hleads, hsend, -⟩ := of_redex? hr
    refine (h.named v ?_).isIdentifier
    rw [← hleads.replaceAt_self, hleads.mem_occurrences_replaceAt, occurrences, List.mem_flatMap]
    refine .inr ⟨_, List.mem_of_getElem? hsend, ?_⟩
    rw [occurrences]
    exact List.mem_cons_of_mem _ hv
  have hkeeps : s.Keeps (s.relabel r.body.prefixNames
      (substitution (r.vars.map s.label) (r.values.map s.label))) :=
    s.keeps_relabel _ fun _ hl => hl.substitution hvalues
  refine ⟨h.orderly.reduct hr, h.binary.reduct hr, fun n hn => hkeeps n (h.named n ?_)⟩
  exact Bound.occurrences_reduct hr hn

theorem reduce (h : s.Supports p) (n : Nat) :
    (s.reduce p n).store.Supports (s.reduce p n).process :=
  reduce_induction n h fun _ _ _ hp hq => (hp.reduceOnce hq).simplify

theorem typecheck (h : s.Supports p) (held : List Name) :
    (Operation.typecheck held s p).store.Supports (Operation.typecheck held s p).process := by
  have hheld : (p.bind s.label).occurrences ⊆ held ++ (p.bind s.label).occurrences :=
    List.subset_append_right _ _
  have hretain := h.bind.retain hheld
  exact hretain.of_keeps (keeps_inferAndUnify _ _)

end Store.Supports

def Operation.takesLabels : Operation → Bool
  | .substitute .. => true
  | _ => false

theorem Store.Supports.run {s : Store} {p : Process Name} (h : s.Supports p) (held : List Name)
    {op : Operation} (own : op.takesLabels = false) :
    (op.run held s p).store.Supports (op.run held s p).process := by
  cases op with
  | bind => exact h.bind
  | identifySorts => exact h.of_keeps (s.keeps_identifySorts p)
  | inferSortsBySpelling => exact h.of_keeps (s.keeps_inferSortsBySpelling p)
  | resetSorts => exact h.of_keeps (s.keeps_resetSorts p)
  | makeUnique => exact h.of_keeps (s.keeps_makeUnique p)
  | infer => exact h.of_keeps (s.keeps_infer p)
  | unify => exact h.of_keeps (s.keeps_unify p)
  | check => exact h.typecheck held
  | reduceOnce =>
    rw [Operation.run]
    split
    · exact h
    · exact h
    · next q hq => exact h.reduceOnce hq
  | reduce n => exact h.reduce n
  | simplify => exact h.simplify
  | substitute vars values => cases own
  | generate options limit => exact h.typecheck held

theorem Process.rootBinders_subset_binders {ν : Type} (p : Process ν) : p.rootBinders ⊆ p.binders := by
  cases p <;> simp [rootBinders, binders]

namespace Program

structure WellFormed (p : Program) : Prop where
  binary : ∀ path ps, p.process.at? path = some (.par ps) → ps.length = 2
  identifiers : ∀ n ∈ p.process.occurrences, IsIdentifier (p.store.label n)
  distinct : p.process.binders.Nodup
  /-- A name that a node introduces occurs nowhere outside this node. -/
  contained : ∀ path q, p.process.at? path = some q → ∀ n ∈ q.rootBinders,
    n ∉ (p.process.replaceAt path .nil).occurrences

theorem WellFormed.of_supports {p : Program} (h : p.store.Supports p.process) : p.WellFormed := by
  refine ⟨fun path ps hat => ?_, fun n hn => (h.named n hn).isIdentifier, h.orderly.nodup,
    fun path q hat n hn => ?_⟩
  · have hpar := h.binary.of_at? hat
    rw [Binary] at hpar
    exact hpar.1
  · have hb := q.rootBinders_subset_binders hn
    exact h.orderly.contained.notMem_outside (by simpa using h.orderly.nodup) hat hb
      (gathers_binders.subset_of_at? hat hb)

theorem supports_of_parse {source : String} {p : Program} (parsed : Program.parse source = .ok p) :
    p.store.Supports p.process := by
  obtain ⟨labels, grouped⟩ := of_parse parsed
  refine ⟨.of_parse parsed, (binary_map _ _).mp grouped.binary, fun n hn => ?_⟩
  obtain ⟨e, he, hconstant⟩ : ∃ e, p.store.get? n = some e ∧ e.constant = false := by
    obtain ⟨written, -, rfl⟩ := parse_eq_ok_iff_all.mp parsed
    obtain ⟨⟨label, hint, span⟩, -, he⟩ := Store.empty.get?_load written hn
    exact ⟨_, he, by cases hint <;> rfl⟩
  have hlabel := labels n hn
  rw [Store.label, he] at hlabel
  exact ⟨e, he, hconstant, hlabel⟩

theorem supports_runAll {p : Program} (h : p.store.Supports p.process) {ops : List Operation}
    (own : ∀ op ∈ ops, op.takesLabels = false) :
    (p.runAll ops).store.Supports (p.runAll ops).process := by
  apply runAll_induction (motive := fun p => p.store.Supports p.process) h
  intro op hop q hq
  exact (hq.run [] (own op hop)).retain (List.Subset.refl _)

/-- What is written of such a program is read with the same labels, and nothing is known of its
names. -/
theorem exists_parse {p : Program} (h : p.store.Supports p.process) :
    ∃ q, Program.parse p.calculi = .ok q ∧
      announced q = (p.process.map p.store.label).map fun l => (l, none, .untyped) := by
  have hlabels := fun n hn => (h.named n hn).isIdentifier
  obtain ⟨q, hq, hannounced⟩ := exists_parse_calculi hlabels h.binary.grouped.1
  rw [((binary_map p.store.label p.process).mpr h.binary).grouped.2] at hannounced
  exact ⟨q, hq, hannounced⟩

theorem map_label_of_announced {p q : Program}
    (h : announced q = (p.process.map p.store.label).map fun l => (l, none, .untyped)) :
    q.process.map q.store.label = p.process.map p.store.label := by
  have hmap := congrArg (Process.map Prod.fst) h
  rw [announced, Process.map_map, Process.map_map] at hmap
  exact hmap.trans (Process.map_id _)

theorem runAll_wellFormed {source : String} {p : Program} (parsed : Program.parse source = .ok p)
    (ops : List Operation) (own : ∀ op ∈ ops, op.takesLabels = false) :
    (p.runAll ops).WellFormed ∧ ∃ q, Program.parse (p.runAll ops).calculi = .ok q ∧
      q.process.map q.store.label = (p.runAll ops).process.map (p.runAll ops).store.label := by
  have h := supports_runAll (supports_of_parse parsed) own
  obtain ⟨q, hq, hannounced⟩ := exists_parse h
  exact ⟨.of_supports h, q, hq, map_label_of_announced hannounced⟩

/-- A run that starts with a failure, and in which a value is captured and loses its binder when the
labels become different. -/
theorem runAll_wellFormed_captured :
    ∃ p ops, Program.parse "(new a)((a<b> | a(x).(new b)(x<b> | !b(a).0)) | b(y,y).y<>)" = .ok p ∧
      ops = [.unify, .check, .reduceOnce, .inferSortsBySpelling, .makeUnique, .simplify] ∧
      (∀ op ∈ ops, op.takesLabels = false) ∧
      (p.run .unify).2.result.toBool = false ∧
      (p.runAll ops).calculi = "((new b_4)(b_5<b_4> | !b_4(a_6).0) | b_1(y_2,y_3).y_3<>)" ∧
      (p.runAll ops).WellFormed ∧ ∃ q, Program.parse (p.runAll ops).calculi = .ok q ∧
        q.process.map q.store.label =
          (p.runAll ops).process.map (p.runAll ops).store.label := by
  obtain ⟨p, hp, hfails, htext⟩ : ∃ p,
      Program.parse "(new a)((a<b> | a(x).(new b)(x<b> | !b(a).0)) | b(y,y).y<>)" = .ok p ∧
      (p.run .unify).2.result.toBool = false ∧
      (p.runAll [.unify, .check, .reduceOnce, .inferSortsBySpelling, .makeUnique,
        .simplify]).calculi = "((new b_4)(b_5<b_4> | !b_4(a_6).0) | b_1(y_2,y_3).y_3<>)" := by
    decide +kernel
  have hown : ∀ op ∈ [Operation.unify, .check, .reduceOnce, .inferSortsBySpelling, .makeUnique,
      .simplify], op.takesLabels = false := by
    simp [Operation.takesLabels]
  exact ⟨p, _, hp, rfl, hown, hfails, htext, runAll_wellFormed hp _ hown⟩

end Program
end PiCalculus
