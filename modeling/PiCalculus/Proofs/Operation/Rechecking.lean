import Mathlib
import PiCalculus.Proofs.Binding.Renaming
import PiCalculus.Proofs.Operation.WellFormed
import PiCalculus.Proofs.Typing.Checking
import PiCalculus.Proofs.Typing.Rechecking

/-! What a check finds in programs that come from a text by reductions and checks. Before the first
check nothing is typed, and it finds what it finds when the program is written down and read again,
if the occurrences are resolved alike. Checks that follow it go over the types that it has left. -/

namespace PiCalculus

open Process

namespace Store

variable {s : Store} {p : Process Name} {n : Name}

theorem type_relabel (s : Store) (names : List Name) (newLabel : String → String) (n : Name) :
    (s.relabel names newLabel).type n = s.type n := by
  rw [type, type, get?_relabel, Option.map_map]
  cases s.get? n with
  | none => rfl
  | some e =>
    rw [Option.map_some, Option.map_some, Function.comp_apply]
    split <;> rfl

/-- A process over a store where none of its names has a type. -/
structure Fresh (s : Store) (p : Process Name) : Prop extends s.Supports p where
  unknown : ∀ n ∈ p.occurrences, s.type n = .untyped

theorem Fresh.reduce (h : s.Fresh p) (n : Nat) :
    (s.reduce p n).store.Fresh (s.reduce p n).process := by
  refine reduce_induction n h fun s p q hp hq => ⟨(hp.reduceOnce hq).simplify, fun n hn => ?_⟩
  have hmem := q.process.occurrences_simplify_subset q.store.label hn
  obtain ⟨path, ps, r, hr, -, rfl⟩ := of_reduceOnce hq
  rw [type_relabel]
  exact hp.unknown n (Bound.occurrences_reduct hr hmem)

theorem Fresh.retain (h : s.Fresh p) : (s.retain p.occurrences).Fresh p :=
  ⟨h.toSupports.retain (List.Subset.refl _), fun n hn => (s.type_retain hn).trans (h.unknown n hn)⟩

theorem eq_of_steps_eq_zero {n : Nat} (h : (s.reduce p n).steps = 0) :
    (s.reduce p n).store = s ∧ (s.reduce p n).process = p := by
  induction n with
  | zero => exact ⟨rfl, rfl⟩
  | succ n ih =>
    rcases s.reduce_succ p n with ⟨q, -, -, hsteps, -⟩ | ⟨hsteps, hstore, hprocess⟩
    · rw [hsteps] at h
      cases h
    · rw [hstore, hprocess]
      exact ih (hsteps ▸ h)

end Store

namespace Program

variable {source : String} {p q : Program} {f : Name → Name} {n : Name}

theorem mem_of_mem_bound (hn : n ∈ p.bound.occurrences) : n ∈ p.process.occurrences :=
  (mem_occurrences_bindIn hn).resolve_left List.not_mem_nil

section held

variable (h : p.store.Supports p.process)

include h

theorem named_held (hn : n ∈ p.bound.occurrences) : p.held.IsNamed n :=
  (h.bind.named n hn).retain hn

theorem isLive_of_mem (hn : n ∈ p.bound.occurrences) : p.held.isLive n := by
  obtain ⟨e, he, -⟩ := named_held h hn
  exact Store.isLive_of_get? he

theorem writable_held (n : Name) : p.held.isConstant n = false := by
  by_cases hn : n ∈ p.bound.occurrences
  · obtain ⟨e, he, hconstant, -⟩ := named_held h hn
    rw [Store.isConstant, he]
    exact hconstant
  · rw [Store.isConstant, held, Store.get?_retain, if_neg hn]
    rfl

end held

theorem type_held (h : p.store.Fresh p.process) (n : Name) : p.held.type n = .untyped := by
  by_cases hn : n ∈ p.bound.occurrences
  · rw [held, Store.type_retain _ hn]
    exact h.unknown n (mem_of_mem_bound hn)
  · refine Store.type_of_get?_none ?_
    rw [held, Store.get?_retain, if_neg hn]

theorem fresh_inferring (h : p.store.Fresh p.process) : p.held.Inferring := by
  refine ⟨fun n => ?_, fun n m => ?_⟩
  · rw [type_held h]
    exact .untyped
  · rw [type_held h]
    simp

def found (p : Program) : Written := p.held.inferAndUnify p.bound

theorem fresh_settles (h : p.store.Fresh p.process) :
    p.held.Settles p.bound p.found :=
  (fresh_inferring h).settles (writable_held h.toSupports) fun _ => isLive_of_mem h.toSupports

theorem fresh_of_parse (parsed : Program.parse source = .ok p)
    (unhinted : ∀ n ∈ p.process.occurrences, p.store.hint n = none) :
    p.store.Fresh p.process := by
  refine ⟨supports_of_parse parsed, fun n hn => ?_⟩
  have hnone := unhinted n hn
  obtain ⟨written, -, rfl⟩ := parse_eq_ok_iff_all.mp parsed
  obtain ⟨⟨label, hint, span⟩, -, he⟩ := Store.empty.get?_load written hn
  rw [Store.type_of_get? he]
  cases hint with
  | none => rfl
  | some hint =>
    rw [Store.hint, he] at hnone
    cases hnone

theorem nodup_of_parse (parsed : Program.parse source = .ok p) : p.process.occurrences.Nodup := by
  obtain ⟨written, -, rfl⟩ := parse_eq_ok_iff_all.mp parsed
  exact Store.empty.load_occurrences_nodup written

theorem exists_parse_fresh (h : p.store.Supports p.process) :
    ∃ q, Program.parse p.calculi = .ok q ∧ q.store.Fresh q.process ∧
      q.process.map q.store.label = p.process.map p.store.label := by
  obtain ⟨q, hq, hannounced⟩ := exists_parse h
  refine ⟨q, hq, fresh_of_parse hq fun n hn => ?_, map_label_of_announced hannounced⟩
  have hmem : (q.store.label n, q.store.hint n, q.store.type n) ∈ (announced q).occurrences := by
    rw [announced, occurrences_map]
    exact List.mem_map_of_mem hn
  rw [hannounced, occurrences_map] at hmem
  obtain ⟨l, -, heq⟩ := List.mem_map.mp hmem
  exact (congrArg (·.2.1) heq).symm

/-- One program is another one under other names, as its occurrences are resolved. -/
structure Renames (f : Name → Name) (p q : Program) : Prop where
  injective : Set.InjOn f {n | n ∈ p.bound.occurrences}
  bound : q.bound = p.bound.map f
  label : ∀ n ∈ p.bound.occurrences, q.store.label (f n) = p.store.label n

theorem label_of_map_eq (labels : q.process.map q.store.label = p.process.map p.store.label)
    {p' q' : Process Name} (hp : p'.map p.store.label = p.process.map p.store.label)
    (hq : q'.map q.store.label = q.process.map q.store.label) (hmap : q' = p'.map f) :
    ∀ n ∈ p'.occurrences, q.store.label (f n) = p.store.label n := by
  have hall := (hq.trans labels).trans hp.symm
  rw [hmap, Process.map_map] at hall
  have hocc := congrArg occurrences hall
  rw [occurrences_map, occurrences_map] at hocc
  exact List.map_inj_left.mp hocc

section renames

variable (labels : q.process.map q.store.label = p.process.map p.store.label)

include labels

/-- Programs with the same labels are the same under other names, if their occurrences are resolved
alike. -/
theorem exists_renames_of_ids (hids : p.bound.ids = q.bound.ids) : ∃ f, Renames f p q := by
  obtain ⟨f, hinj, hocc⟩ := exists_renaming hids
  have hp := map_bind p.store.label p.process
  have hq := map_bind q.store.label q.process
  have hmap : q.bound = p.bound.map f :=
    (map_eq_of_occurrences ((hq.trans labels).trans hp.symm) hocc).symm
  exact ⟨f, hinj, hmap, label_of_map_eq labels hp hq hmap⟩

/-- The occurrences are resolved alike if they are all different before. -/
theorem exists_renames_of_nodup (hp : p.process.occurrences.Nodup)
    (hq : q.process.occurrences.Nodup) : ∃ f, Renames f p q := by
  have hids : p.process.ids = q.process.ids := by
    rw [ids_of_nodup hp, ids_of_nodup hq, length_occurrences_eq labels]
  obtain ⟨f, hinj, hocc⟩ := exists_renaming hids
  have hmap : q.process = p.process.map f := (map_eq_of_occurrences labels hocc).symm
  have hlabel := label_of_map_eq labels rfl rfl hmap
  refine ⟨f, hinj.mono fun n => mem_of_mem_bound, ?_, fun n hn => hlabel n (mem_of_mem_bound hn)⟩
  rw [bound, hmap, bind_map hlabel, bound]

end renames

/-- Programs without types that are the same under other names are checked alike. -/
theorem Renames.check (h : Renames f p q) (hp : p.store.Fresh p.process)
    (hq : q.store.Fresh q.process) : Written.Mirrors f p.found q.found := by
  have hmem : ∀ n, p.held.isLive n → f n ∈ q.bound.occurrences := by
    intro n hn
    rw [h.bound, occurrences_map]
    exact List.mem_map_of_mem (mem_of_isLive_held hn)
  have hmirrors : Store.Mirrors f p.held q.held := by
    refine ⟨fun n hn => isLive_of_mem hq.toSupports (hmem n hn), fun n hn => ?_, fun n hn => ?_,
      fun n hn m hm => ?_, fun n hn => ?_⟩
    · rw [label_held (hmem n hn), label_held (mem_of_isLive_held hn),
        h.label n (mem_of_isLive_held hn)]
    · rw [writable_held hq.toSupports, writable_held hp.toSupports]
    · exact h.injective (mem_of_isLive_held hn) (mem_of_isLive_held hm)
    · rw [type_held hp, type_held hq]
      exact .untyped
  rw [found, found, h.bound]
  exact hmirrors.inferAndUnify (fresh_inferring hp) (writable_held hp.toSupports) fun n =>
    isLive_of_mem hp.toSupports

/-- What a check of a program has left behind, or checks that followed it. -/
structure Checked (p q : Program) : Prop where
  supports : q.store.Supports q.process
  process : q.process = p.bound
  mirrors : Store.Mirrors id p.found.store q.store

namespace Checked

variable (hp : p.store.Fresh p.process) (h : Checked p q)

include hp

theorem isLive (hn : n ∈ p.bound.occurrences) : p.found.store.isLive n :=
  ((fresh_settles hp).retypes.isLive_eq n).trans (isLive_of_mem hp.toSupports hn)

theorem mem_of_isLive (hn : p.found.store.isLive n) : n ∈ p.bound.occurrences :=
  mem_of_isLive_held (((fresh_settles hp).retypes.isLive_eq n).symm.trans hn)

include h

theorem label_eq (hn : n ∈ p.bound.occurrences) : q.store.label n = p.store.label n := by
  rw [← label_held hn, ← (fresh_settles hp).retypes.label_eq]
  exact h.mirrors.label n (isLive hp hn)

theorem bound_eq : q.bound = p.bound := by
  have hlabel : ∀ n ∈ p.bound.occurrences, q.store.label (id n) = p.store.label n := fun n hn =>
    h.label_eq hp hn
  have hbind := bind_map hlabel
  rw [map_id, map_id] at hbind
  rw [bound, h.process, hbind]
  exact bind_bind p.process

/-- A further check does what unification does to what the first one has found. -/
theorem check : Written.Mirrors id (p.found.store.unify p.bound) q.found := by
  have hheld : Store.Mirrors id p.found.store q.held := by
    refine h.mirrors.congr fun n hn => held_get? ?_
    rw [h.bound_eq hp]
    exact mem_of_isLive hp hn
  rw [found.eq_def q, h.bound_eq hp]
  exact (fresh_settles hp).check_again hheld (writable_held h.supports) fun n =>
    isLive_of_mem hp.toSupports

theorem run_check : Checked p (q.run .check).1 := by
  have hmirrors := (h.check hp).store
  rw [(fresh_settles hp).again] at hmirrors
  refine ⟨(h.supports.run [] rfl).retain (List.Subset.refl _), h.bound_eq hp, ?_⟩
  refine hmirrors.congr fun n hn => ?_
  have hmem : n ∈ q.bound.occurrences := by
    rw [h.bound_eq hp]
    exact mem_of_isLive hp hn
  exact (Store.get?_retain _ _ n).trans (if_pos hmem)

theorem run_reduce {k : Nat} (hsteps : (q.store.reduce q.process k).steps = 0) :
    Checked p (q.run (.reduce k)).1 := by
  obtain ⟨hstore, hprocess⟩ := Store.eq_of_steps_eq_zero hsteps
  have hrun : (q.run (.reduce k)).1 = ⟨q.process, q.store.retain q.process.occurrences⟩ := by
    rw [run, Operation.run, hstore, hprocess]
  rw [hrun]
  refine ⟨h.supports.retain (List.Subset.refl _), h.process, h.mirrors.congr fun n hn => ?_⟩
  rw [Store.get?_retain, if_pos]
  rw [h.process]
  exact mem_of_isLive hp hn

end Checked

theorem checked_run (hp : p.store.Fresh p.process) : Checked p (p.run .check).1 := by
  refine ⟨(hp.toSupports.run [] rfl).retain (List.Subset.refl _), rfl, ?_⟩
  refine (fresh_settles hp).sound.mirrors.congr fun n hn => ?_
  exact (Store.get?_retain _ _ n).trans (if_pos (Checked.mem_of_isLive hp hn))

/-- Whether all that is done is to check and to reduce, and no communication takes place once there
was a check. -/
def checksLast (p : Program) (checked : Bool) : List Operation → Bool
  | [] => true
  | .check :: ops => (p.run .check).1.checksLast true ops
  | .reduce k :: ops =>
    (!checked || (p.store.reduce p.process k).steps == 0) &&
      (p.run (.reduce k)).1.checksLast checked ops
  | _ :: _ => false

theorem Checked.runAll (hp : p.store.Fresh p.process) (h : Checked p q) {ops : List Operation}
    (hops : q.checksLast true ops = true) : Checked p (q.runAll ops) := by
  induction ops generalizing q with
  | nil => exact h
  | cons op ops ih =>
    cases op with
    | check => exact ih (h.run_check hp) hops
    | reduce k =>
      rw [checksLast, Bool.and_eq_true, Bool.not_true, Bool.false_or, beq_iff_eq] at hops
      exact ih (h.run_reduce hp hops.1) hops.2
    | _ => cases hops

/-- The program at the time of the first check, or in the end if there is none. -/
theorem exists_unchecked (hp : p.store.Fresh p.process) {ops : List Operation}
    (hops : p.checksLast false ops = true) :
    ∃ p', p'.store.Fresh p'.process ∧ ((∀ op ∈ ops, op = .check) → p' = p) ∧
      ((.check ∉ ops ∧ p.runAll ops = p') ∨ (.check ∈ ops ∧ Checked p' (p.runAll ops))) := by
  induction ops generalizing p with
  | nil => exact ⟨p, hp, fun _ => rfl, .inl ⟨List.not_mem_nil, rfl⟩⟩
  | cons op ops ih =>
    cases op with
    | check =>
      exact ⟨p, hp, fun _ => rfl, .inr ⟨List.mem_cons_self, (checked_run hp).runAll hp hops⟩⟩
    | reduce k =>
      rw [checksLast, Bool.and_eq_true] at hops
      obtain ⟨p', hp', -, hcases⟩ := ih (p := (p.run (.reduce k)).1) (hp.reduce k).retain hops.2
      refine ⟨p', hp', fun hall => ?_, ?_⟩
      · cases hall _ List.mem_cons_self
      · refine hcases.imp (fun h => ⟨fun hmem => ?_, h.2⟩) fun h => ⟨List.mem_cons_of_mem _ h.1, h.2⟩
        rcases List.mem_cons.mp hmem with heq | hmem
        · cases heq
        · exact h.1 hmem
    | _ => cases hops

theorem result_eq_ok_iff (p : Program) :
    (p.run .check).2.result = .ok .none ↔ p.found.failure = none := by
  have hresult : (p.run .check).2.result = p.found.result.map fun _ => .none := rfl
  rw [hresult, Written.result]
  cases p.found.failure with
  | none => exact iff_of_true rfl rfl
  | some e => exact iff_of_false (by simp [Except.map]) (by simp)

theorem unplaced_result_eq (h : Written.Mirrors f p.found q.found) :
    (q.run .check).2.result.mapError Error.unplaced =
      (p.run .check).2.result.mapError Error.unplaced := by
  have hresult : ∀ p : Program, (p.run .check).2.result.mapError Error.unplaced =
      (p.found.failure.map Error.unplaced).elim (.ok .none) .error := by
    intro p
    have heq : (p.run .check).2.result = p.found.result.map fun _ => .none := rfl
    rw [heq, Written.result]
    cases p.found.failure <;> rfl
  rw [hresult, hresult, h.failure]

def types (p : Program) : String := p.store.channelTypes p.process

section

variable (hp : p.store.Fresh p.process) (h : Checked p q)

include hp h

theorem Checked.types_eq : q.types = p.found.store.channelTypes p.bound := by
  have heq := h.mirrors.channelTypes_eq (fresh_settles hp).sound.grounded fun n =>
    Checked.isLive hp
  rw [map_id] at heq
  rw [types, h.process, heq]

theorem Checked.consistent_iff :
    q.store.Consistent q.process ↔ p.found.store.Consistent p.bound := by
  have hiff := h.mirrors.consistent_iff (fresh_settles hp).sound.grounded fun n =>
    Checked.isLive hp
  rw [map_id] at hiff
  rw [h.process, hiff]

theorem Checked.map_label : q.process.map q.store.label = p.process.map p.store.label := by
  rw [← map_bind p.store.label p.process, h.process]
  exact map_congr fun n hn => h.label_eq hp hn

/-- A check after another one finds all right if that one did and everything fits in the end. -/
theorem Checked.result_iff : (q.run .check).2.result = .ok .none ↔
    (p.run .check).2.result = .ok .none ∧ p.found.store.Consistent p.bound := by
  rw [result_eq_ok_iff, result_eq_ok_iff, (h.check hp).failure_iff, (fresh_settles hp).failure_iff]

end

/-- A check of what checks and reductions made of a program, and one of what is read where this is
written down. -/
theorem check_runAll (parsed : Program.parse source = .ok p)
    (unhinted : ∀ n ∈ p.process.occurrences, p.store.hint n = none) {ops : List Operation}
    (hops : p.checksLast false ops = true) :
    ∃ q, Program.parse (p.runAll ops).calculi = .ok q ∧
      (.check ∈ ops → ((p.runAll ops).run .check).1.types = (p.runAll ops).types) ∧
      ((∀ op ∈ ops, op = .check) ∨ (p.runAll ops).bound.ids = q.bound.ids →
        ((p.runAll ops).run .check).1.types = (q.run .check).1.types ∧
        (((p.runAll ops).run .check).2.result = .ok .none ↔
          (q.run .check).2.result = .ok .none ∧
            (.check ∈ ops → (q.run .check).1.store.Consistent (q.run .check).1.process)) ∧
        (.check ∉ ops → ((p.runAll ops).run .check).2.result.mapError Error.unplaced =
          (q.run .check).2.result.mapError Error.unplaced)) := by
  obtain ⟨p', hp', hsame, hcases⟩ := exists_unchecked (fresh_of_parse parsed unhinted) hops
  generalize p.runAll ops = tree at hcases ⊢
  -- What is known of the tree is known of the program at its first check, or it is that program
  -- itself.
  have hsupports : tree.store.Supports tree.process := by
    rcases hcases with ⟨-, rfl⟩ | ⟨-, h⟩
    · exact hp'.toSupports
    · exact h.supports
  have hlabels : tree.process.map tree.store.label = p'.process.map p'.store.label := by
    rcases hcases with ⟨-, rfl⟩ | ⟨-, h⟩
    · rfl
    · exact h.map_label hp'
  have hbound : tree.bound = p'.bound := by
    rcases hcases with ⟨-, rfl⟩ | ⟨-, h⟩
    · rfl
    · exact h.bound_eq hp'
  have hrun : Checked p' (tree.run .check).1 := by
    rcases hcases with ⟨-, rfl⟩ | ⟨-, h⟩
    · exact checked_run hp'
    · exact h.run_check hp'
  obtain ⟨q, hq, hfresh, hread⟩ := exists_parse_fresh hsupports
  have hqrun := checked_run hfresh
  refine ⟨q, hq, fun hmem => ?_, fun hresolved => ?_⟩
  · obtain ⟨-, h⟩ := hcases.resolve_left fun h => h.1 hmem
    rw [hrun.types_eq hp', h.types_eq hp']
  -- The program that is read has the labels of the one at the first check, so it is that under
  -- other names.
  obtain ⟨f, hf⟩ : ∃ f, Renames f p' q := by
    rcases hresolved with hall | hids
    · obtain rfl := hsame hall
      refine exists_renames_of_nodup (hread.trans hlabels) ?_ ?_
      · exact nodup_of_parse parsed
      · exact nodup_of_parse hq
    · exact exists_renames_of_ids (hread.trans hlabels) (hbound ▸ hids)
  have hcheck := hf.check hp' hfresh
  have hlive : ∀ n ∈ p'.bound.occurrences, p'.found.store.isLive n := fun n => Checked.isLive hp'
  have hgrounded := (fresh_settles hp').sound.grounded
  refine ⟨?_, ?_, fun hmem => ?_⟩
  · have htypes := hcheck.store.channelTypes_eq hgrounded hlive
    rw [hrun.types_eq hp', hqrun.types_eq hfresh, hf.bound, htypes]
  · have hresult : (q.run .check).2.result = .ok .none ↔ (p'.run .check).2.result = .ok .none := by
      rw [result_eq_ok_iff, result_eq_ok_iff, hcheck.failure_iff]
    have hconsistent := hcheck.store.consistent_iff hgrounded hlive
    rw [hqrun.consistent_iff hfresh, hf.bound, hconsistent, hresult]
    rcases hcases with ⟨hmem, rfl⟩ | ⟨hmem, h⟩
    · exact ⟨fun hok => ⟨hok, fun hcheck => absurd hcheck hmem⟩, And.left⟩
    · rw [h.result_iff hp', forall_prop_of_true hmem]
  · obtain ⟨-, rfl⟩ := hcases.resolve_right fun h => hmem h.1
    exact (unplaced_result_eq hcheck).symm

theorem check_runAll_after_reduction :
    let source := "(new a,b)(k<> | k().(a<b> | !a(x).x<>))"
    let ops := [.reduce 5, .check, .reduce 5, .check]
    ∃ p q, Program.parse source = .ok p ∧
      (∀ n ∈ p.process.occurrences, p.store.hint n = none) ∧ p.checksLast false ops = true ∧
      Program.parse (p.runAll ops).calculi = .ok q ∧ (p.runAll ops).bound.ids = q.bound.ids ∧
      (p.runAll ops).calculi = "(new a)(new b)(a<b> | !a(x).x<>)" ∧
      ((p.runAll ops).run .check).1.types = (p.runAll ops).types ∧
      ((p.runAll ops).run .check).1.types = (q.run .check).1.types ∧
      (((p.runAll ops).run .check).2.result = .ok .none ↔ (q.run .check).2.result = .ok .none ∧
        (q.run .check).1.store.Consistent (q.run .check).1.process) := by
  intro source ops
  obtain ⟨p, hp, unhinted, hops, htext, q, hq, hids⟩ : ∃ p, Program.parse source = .ok p ∧
      (∀ n ∈ p.process.occurrences, p.store.hint n = none) ∧ p.checksLast false ops = true ∧
      (p.runAll ops).calculi = "(new a)(new b)(a<b> | !a(x).x<>)" ∧
      ∃ q, Program.parse (p.runAll ops).calculi = .ok q ∧
        (p.runAll ops).bound.ids = q.bound.ids := by
    decide +kernel
  have hcheck : .check ∈ ops := List.mem_cons_of_mem _ List.mem_cons_self
  obtain ⟨q', hq', hsame, halike⟩ := check_runAll hp unhinted hops
  obtain rfl : q' = q := by
    rw [hq] at hq'
    exact (Except.ok.inj hq').symm
  obtain ⟨htypes, hresult, -⟩ := halike (.inr hids)
  rw [forall_prop_of_true hcheck] at hresult
  exact ⟨p, q', hp, unhinted, hops, hq, hids, htext, hsame hcheck, htypes, hresult⟩

instance (result : Except String Operation.Value) (message : String) :
    Decidable (result = .error message) :=
  match result with
  | .error other => decidable_of_iff (other = message) (by simp)
  | .ok _ => .isFalse nofun

/-- Names that were taken to agree while they were unknown may be found not to in a second check, also
before the place where the first one failed. Types stay where a communication takes the uses away
after which they were found. And free occurrences in a text are different names, while they may be
left from one variable. -/
theorem check_runAll_differs :
    (∃ p, Program.parse "(new a,b)(a<b> | b<p> | a(x).(x<q> | x(z).z<>))" = .ok p ∧
      (p.run .check).2.result = .ok .none ∧
      ∃ q, Program.parse (p.runAll [.check]).calculi = .ok q ∧ (q.run .check).2.result = .ok .none ∧
        ¬ ((p.runAll [.check]).run .check).2.result = .ok .none) ∧
    (∃ p, Program.parse "(new a,b,c)(a<b> | b<p> | a(x).(x<q> | x(z).z<>) | c<> | c(w).0)" = .ok p ∧
      ∃ q, Program.parse (p.runAll [.check]).calculi = .ok q ∧
        (q.run .check).2.result.mapError Error.message = .error
          ("type error: arity mismatch (got=0, expected=1)" ++
            " (types from channel c and vars have different arity)") ∧
        ((p.runAll [.check]).run .check).2.result.mapError Error.message = .error
          ("type error: type chan interface\x7b\x7d and chan chan struct\x7b\x7d does not match" ++
            " (types inferred from channel a are in conflict)")) ∧
    (∃ p, Program.parse "(new a)((a<b> | a(x).0) | a(y).y<>)" = .ok p ∧
      ∃ q, Program.parse (p.runAll [.check, .reduce 1]).calculi = .ok q ∧
        (q.run .check).2.result = .ok .none ∧
        ¬ ((p.runAll [.check, .reduce 1]).run .check).2.result = .ok .none) ∧
    (∃ p, Program.parse "k<> | k().(a<b> | a(x).(x<c,d> | x(y).0))" = .ok p ∧
      ∃ q, Program.parse (p.runAll [.reduce 2]).calculi = .ok q ∧
        (q.run .check).2.result = .ok .none ∧
        ¬ ((p.runAll [.reduce 2]).run .check).2.result = .ok .none) := by
  decide +kernel

end Program
end PiCalculus
