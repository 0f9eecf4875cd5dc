import Mathlib
import PiCalculus.Proofs.Labelling.Unique
import PiCalculus.Proofs.Reduction.Capture
import PiCalculus.Proofs.Reduction.Tidying

/-! Reductions of processes without free names whose binders all have different labels. No value
that is put for a variable has a label of a binder that it meets, so nothing is captured, and what
is left is again such a process. -/

namespace PiCalculus

open Process

/-- A process without free names whose binders have different labels, and all of whose names may
still be written to. -/
structure Store.Apart (s : Store) (p : Process Name) : Prop where
  live : ∀ n ∈ p.occurrences, s.isLive n
  mutable : ∀ n ∈ p.occurrences, s.isConstant n = false
  distinct : (p.binders.map s.label).Nodup
  confined : p.Confined []

/-- One step of the calculus: a send and a receive of one composition that have one name as their
channel communicate, and what is left may be tidied up by structural congruence. -/
inductive Store.StepsTo (s : Store) (p : Process Name) (t : Store) (q : Process Name) : Prop
  | intro {path : List Nat} {ps : List (Process Name)} {sender receiver : Nat} {chan : Name}
      {values vars : List Name} {body : Process Name} {reduct : Process String}
      (leads : p.Leads path (.par ps))
      (send : ps[sender]? = some (.send chan values))
      (receive : ps[receiver]? = some (.receive chan vars body))
      (communicates : Communicates path sender receiver (p.map s.label) reduct)
      (tidied : Congruent reduct (q.map t.label))

namespace Store.Apart

variable {s : Store} {p : Process Name} {path : List Nat} {ps : List (Process Name)}
  {r : Redex Name}

theorem bound (h : s.Apart p) : s.Bound p :=
  ⟨h.live, h.mutable, h.distinct.of_map, h.confined.wellBound h.distinct⟩

theorem closed (h : s.Apart p) : (p.map s.label).freeLabels = [] := by
  rw [freeLabels_map, h.confined.free_eq_nil, List.map_nil]

/-- The names in scope at the communication, the variables and the binders of the continuation all
have different labels, and what is sent and the channels are in scope. -/
theorem of_redex? (h : s.Apart p) (hr : s.redex? p = some (path, ps, r)) :
    ∃ scope : Scope Name, ((scope ++ (r.vars ++ r.body.binders)).map s.label).Nodup ∧
      (∀ v ∈ r.values, v ∈ scope) ∧ r.body.Confined (r.vars.reverse ++ scope) ∧
      ps[r.receiver]? = some (.receive r.chan r.vars r.body) := by
  obtain ⟨hleads, hsend, other, hreceive, hchan⟩ := Store.of_redex? hr
  obtain ⟨scope, outside, hpar, hperm⟩ := scoped_confined.leads hleads h.confined
  have hall : ((scope ++ (Process.par ps).binders ++ outside).map s.label).Nodup :=
    (hperm.map s.label).nodup_iff.mpr h.distinct
  have hd : ((scope ++ (Process.par ps).binders).map s.label).Nodup :=
    hall.sublist ((List.sublist_append_left ..).map s.label)
  rw [Confined] at hpar
  have hs := hpar _ (List.mem_of_getElem? hsend)
  have hv := hpar _ (List.mem_of_getElem? hreceive)
  rw [Confined] at hs
  rw [Confined] at hv
  have hscope := nodup_scope hd
  -- Both channels are in scope, where names with one label are one name.
  obtain rfl : other = r.chan :=
    List.inj_on_of_nodup_map hscope hv.1 (hs r.chan List.mem_cons_self) hchan
  refine ⟨scope, ?_, fun v hm => hs v (List.mem_cons_of_mem _ hm), hv.2, hreceive⟩
  have hin := nodup_component hd (List.mem_of_getElem? hreceive)
  rwa [binders] at hin

/-- No name of the continuation comes to have the label of a binder there. -/
theorem keepsBinding (h : s.Apart p) (hr : s.redex? p = some (path, ps, r))
    (even : r.values.length = r.vars.length) :
    r.body.KeepsBinding s.label (r.newLabel s.label) := by
  obtain ⟨scope, hd, hvalues, hbody, -⟩ := h.of_redex? hr
  rw [List.map_append, List.map_append, List.nodup_append, List.nodup_append] at hd
  obtain ⟨-, ⟨-, -, hvars⟩, hscope⟩ := hd
  have hold : ∀ b ∈ r.body.binders, s.label b ∉ r.vars.map s.label := fun b hb hm =>
    hvars _ hm _ (List.mem_map_of_mem hb) rfl
  refine keepsBinding_of_iff fun b hb n hn => ?_
  rw [Redex.newLabel_of_notMem (hold b hb), Redex.newLabel, if_pos (r.body.usedNames_subset_prefixNames hn)]
  by_cases hl : s.label n ∈ r.vars.map s.label
  · -- A variable takes the label of a value, which no binder of the continuation has either.
    obtain ⟨v, hv, heq⟩ := List.mem_map.mp (substitution_mem (by simpa using even) hl)
    have hnew : s.label v ≠ s.label b := fun he =>
      hscope _ (List.mem_map_of_mem (hvalues v hv)) _
        (List.mem_append_right _ (List.mem_map_of_mem hb)) he
    have hne : s.label n ≠ s.label b := fun he => hold b hb (he ▸ hl)
    rw [← heq]
    exact iff_of_false hnew hne
  · rw [substitution_of_notMem hl]

/-- All binders stay but the variables for which values are put. -/
theorem binders_reduct (hr : s.redex? p = some (path, ps, r)) :
    ((p.replaceAt path (.par (r.contract ps))).binders ++ r.vars).Perm p.binders := by
  have hnil : (Process.nil : Process Name).binders = [] := by rw [binders]
  obtain ⟨other, -, hperm⟩ := Store.gathered_reduct gathers_binders hnil hr
  rw [binders, List.nil_append] at hperm
  exact List.perm_append_comm.trans hperm.symm

/-- What a communication leaves is what the calculus asks for. -/
theorem communicates (h : s.Apart p) (hr : s.redex? p = some (path, ps, r))
    (even : r.values.length = r.vars.length) :
    ∃ m, Communicates path r.sender r.receiver (p.map s.label) m ∧
      AlphaEquivalent ((p.replaceAt path (.par (r.contract ps))).map (r.newLabel s.label)) m := by
  obtain ⟨m, hm, halpha⟩ := h.bound.communicates hr even
  exact ⟨m, hm, halpha.mpr (h.keepsBinding hr even)⟩

theorem closed_reduct (h : s.Apart p) (hr : s.redex? p = some (path, ps, r))
    (even : r.values.length = r.vars.length) :
    ((p.replaceAt path (.par (r.contract ps))).map (r.newLabel s.label)).freeLabels = [] := by
  obtain ⟨m, hm, halpha⟩ := h.communicates hr even
  refine List.eq_nil_iff_forall_not_mem.mpr fun l hl => ?_
  have hbefore := hm.freeLabels_subset (halpha.mem_freeLabels.mp hl)
  rw [h.closed] at hbefore
  exact List.not_mem_nil hbefore

theorem distinct_reduct (h : s.Apart p) (hr : s.redex? p = some (path, ps, r)) :
    ((p.replaceAt path (.par (r.contract ps))).binders.map (r.newLabel s.label)).Nodup := by
  have hd := ((binders_reduct hr).map s.label).nodup_iff.mpr h.distinct
  rw [List.map_append, List.nodup_append] at hd
  obtain ⟨hleft, -, hvars⟩ := hd
  have hkeep : ∀ b ∈ (p.replaceAt path (.par (r.contract ps))).binders,
      r.newLabel s.label b = s.label b := fun b hb =>
    Redex.newLabel_of_notMem fun hv => hvars _ (List.mem_map_of_mem hb) _ hv rfl
  rwa [List.map_congr_left hkeep]

/-- Tidying up a process without free names whose binders have different labels leaves such a
process, and it asks nothing more of the store. -/
theorem of_simplify {t : Store} {q : Process Name} (live : ∀ b ∈ q.binders, t.isLive b)
    (mutable : ∀ b ∈ q.binders, t.isConstant b = false) (closed : q.free t.label = [])
    (distinct : (q.binders.map t.label).Nodup) : t.Apart (q.simplify t.label) := by
  have hsub := binders_simplify_sublist t.label q
  have hconfined := simplify_confined closed distinct
  have hmem : ∀ n ∈ (q.simplify t.label).occurrences, n ∈ q.binders := fun n hn =>
    hsub.subset ((hconfined.mem_binders hn).resolve_left List.not_mem_nil)
  exact ⟨fun n hn => live n (hmem n hn), fun n hn => mutable n (hmem n hn),
    distinct.sublist (hsub.map t.label), hconfined⟩

/-- A communication and tidying up make a step, to a process of the same kind. -/
theorem reduceOnce (h : s.Apart p) {q : Reduct} (hq : s.reduceOnce p = .ok (some q)) :
    q.store.Apart (q.process.simplify q.store.label) ∧
      s.StepsTo p q.store (q.process.simplify q.store.label) := by
  obtain ⟨path, ps, r, hr, even, rfl⟩ := of_reduceOnce hq
  dsimp only
  obtain ⟨m, hm, halpha⟩ := h.communicates hr even
  have hclosed := h.closed_reduct hr even
  have hdistinct := h.distinct_reduct hr
  have hocc := Bound.occurrences_reduct hr
  -- On the names that are left the store's labels are the new ones, so what is left may be read by it.
  have hlabel : ∀ n ∈ (p.replaceAt path (.par (r.contract ps))).occurrences,
      r.newLabel s.label n = (s.relabel r.body.prefixNames
        (substitution (r.vars.map s.label) (r.values.map s.label))).label n := fun n hn =>
    (h.bound.label_relabel_reduct (hocc hn)).symm
  rw [map_congr hlabel] at halpha hclosed
  rw [freeLabels_map, List.map_eq_nil_iff] at hclosed
  rw [List.map_congr_left fun b hb => hlabel b (binders_subset_occurrences _ hb)] at hdistinct
  constructor
  · refine of_simplify (fun b hb => ?_) (fun b hb => ?_) hclosed hdistinct
    · rw [isLive_relabel]
      exact h.live b (hocc (binders_subset_occurrences _ hb))
    · rw [isConstant_relabel]
      exact h.mutable b (hocc (binders_subset_occurrences _ hb))
  · obtain ⟨hleads, hsend, -⟩ := Store.of_redex? hr
    obtain ⟨-, -, -, -, hreceive⟩ := h.of_redex? hr
    exact .intro hleads hsend hreceive hm
      ((Congruent.alpha halpha).symm.trans (simplify_congruent hclosed hdistinct).symm)

end Store.Apart

namespace Store

variable {s : Store} {p : Process Name}

/-- Allowing one more step adds at most one more step to a run. -/
theorem reduceFrom_succ (taken n : Nat) (s : Store) (p : Process Name) :
    let before := s.reduceFrom taken n p
    let after := s.reduceFrom taken (n + 1) p
    (∃ q, before.store.reduceOnce before.process = .ok (some q) ∧ before.steps = taken + n ∧
      after.steps = taken + n + 1 ∧ after.store = q.store ∧
      after.process = q.process.simplify q.store.label) ∨
    (after.steps = before.steps ∧ after.store = before.store ∧
      after.process = before.process) := by
  induction n generalizing taken s p with
  | zero =>
    cases hq : s.reduceOnce p with
    | error e => exact .inr (by simp [reduceFrom, hq])
    | ok q =>
      cases q with
      | none => exact .inr (by simp [reduceFrom, hq])
      | some q => exact .inl ⟨q, hq, by simp [reduceFrom, hq]⟩
  | succ n ih =>
    cases hq : s.reduceOnce p with
    | error e => exact .inr (by simp [reduceFrom, hq])
    | ok q =>
      cases q with
      | none => exact .inr (by simp [reduceFrom, hq])
      | some q =>
        have hrest := ih (taken + 1) q.store (q.process.simplify q.store.label)
        rw [reduceFrom, reduceFrom, hq]
        simpa only [Nat.add_right_comm taken 1 n, ← Nat.add_assoc] using hrest

/-- A run has made as many steps as it was allowed, and with one more it makes one more, or it has
come to its end. -/
theorem reduce_succ (s : Store) (p : Process Name) (n : Nat) :
    (∃ q, (s.reduce p n).store.reduceOnce (s.reduce p n).process = .ok (some q) ∧
      (s.reduce p n).steps = n ∧ (s.reduce p (n + 1)).steps = n + 1 ∧
      (s.reduce p (n + 1)).store = q.store ∧
      (s.reduce p (n + 1)).process = q.process.simplify q.store.label) ∨
    ((s.reduce p (n + 1)).steps = (s.reduce p n).steps ∧
      (s.reduce p (n + 1)).store = (s.reduce p n).store ∧
      (s.reduce p (n + 1)).process = (s.reduce p n).process) := by
  unfold reduce
  simpa only [Nat.zero_add] using reduceFrom_succ 0 n s p

theorem Apart.run (h : s.Apart p) (n : Nat) : (s.reduce p n).store.Apart (s.reduce p n).process := by
  induction n with
  | zero => exact h
  | succ n ih =>
    rcases s.reduce_succ p n with ⟨q, hq, -, -, hstore, hprocess⟩ | ⟨-, hstore, hprocess⟩
    · rw [hstore, hprocess]
      exact (ih.reduceOnce hq).1
    · rwa [hstore, hprocess]

/-- A run is faithful if it goes from one process of distinct and resolved names to another one by
steps of the calculus until it stops. -/
structure RunsFaithfully (s : Store) (p : Process Name) (n : Nat) : Prop where
  distinct : ((s.reduce p n).process.binders.map (s.reduce p n).store.label).Nodup
  resolved : (s.reduce p n).process.Resolved (s.reduce p n).store.label []
  next :
    (s.reduce p n).steps = n ∧ (s.reduce p (n + 1)).steps = n + 1 ∧
      (s.reduce p n).store.StepsTo (s.reduce p n).process (s.reduce p (n + 1)).store
        (s.reduce p (n + 1)).process ∨
    (s.reduce p (n + 1)).steps = (s.reduce p n).steps ∧
      (s.reduce p (n + 1)).store = (s.reduce p n).store ∧
      (s.reduce p (n + 1)).process = (s.reduce p n).process

theorem Apart.runsFaithfully (h : s.Apart p) (n : Nat) : s.RunsFaithfully p n := by
  have hn := h.run n
  refine ⟨hn.distinct, hn.confined.resolved hn.distinct, ?_⟩
  rcases s.reduce_succ p n with ⟨q, hq, hsteps, hsteps', hstore, hprocess⟩ | hsame
  · refine .inl ⟨hsteps, hsteps', ?_⟩
    rw [hstore, hprocess]
    exact (hn.reduceOnce hq).2
  · exact .inr hsame

/-- Names with labels of their own keep apart what was bound. -/
theorem apart_makeUnique (live : ∀ n ∈ p.occurrences, s.isLive n)
    (mutable : ∀ n ∈ p.occurrences, s.isConstant n = false) (nodup : p.binders.Nodup)
    (confined : p.Confined []) : (s.makeUnique p).store.Apart p := by
  have hget := (makeUnique_spec mutable).2
  refine ⟨fun n hn => ?_, fun n hn => ?_, ?_, confined⟩
  · rw [isLive, hget n hn, Option.isSome_map]
    exact live n hn
  · have hconstant := mutable n hn
    rw [isConstant] at hconstant ⊢
    rwa [hget n hn, Option.map_map]
  · exact nodup.map_on fun n hn m hm => makeUnique_label_injOn live mutable
      (p.binders_subset_occurrences hn) (p.binders_subset_occurrences hm)

end Store

namespace Program

theorem reduce_faithful {source : String} {p : Program} (parsed : Program.parse source = .ok p)
    (closed : (p.process.map p.store.label).freeLabels = [])
    (outside : ∀ i ∈ (p.process.map p.store.label).inputs, i.1 ∉ i.2) :
    (p.store.makeUnique (p.process.bind p.store.label)).failure = none ∧
      ∀ n, (p.store.makeUnique (p.process.bind p.store.label)).store.RunsFaithfully
        (p.process.bind p.store.label) n := by
  have hbound := bound_of_parse parsed
  have hconfined : (p.process.bind p.store.label).Confined [] := by
    rw [freeLabels_map, List.map_eq_nil_iff] at closed
    rw [inputs_map] at outside
    exact (bind_resolved closed fun i hi => outside _ (List.mem_map_of_mem hi)).confined
  refine ⟨(Store.makeUnique_spec hbound.mutable).1, fun n => Store.Apart.runsFaithfully ?_ n⟩
  exact Store.apart_makeUnique hbound.live hbound.mutable hbound.nodup hconfined

/-- Two steps with a sent name that meets a restriction of its label. -/
theorem reduce_faithful_sent_private :
    ∃ p, Program.parse "(new a,b)(a<b> | a(x).(new b)(x<b> | x(y).y<>))" = .ok p ∧
      (p.process.map p.store.label).freeLabels = [] ∧
      (∀ i ∈ (p.process.map p.store.label).inputs, i.1 ∉ i.2) ∧
      ((p.store.makeUnique (p.process.bind p.store.label)).store.reduce
        (p.process.bind p.store.label) 2).steps = 2 ∧
      (p.store.makeUnique (p.process.bind p.store.label)).failure = none ∧
      ∀ n, (p.store.makeUnique (p.process.bind p.store.label)).store.RunsFaithfully
        (p.process.bind p.store.label) n := by
  have hparse : (match Program.parse "(new a,b)(a<b> | a(x).(new b)(x<b> | x(y).y<>))" with
      | .ok p =>
        decide ((p.process.map p.store.label).freeLabels = []) &&
          (p.process.map p.store.label).inputs.all (fun i => decide (i.1 ∉ i.2)) &&
          decide (((p.store.makeUnique (p.process.bind p.store.label)).store.reduce
            (p.process.bind p.store.label) 2).steps = 2)
      | .error _ => false) = true := by decide +kernel
  split at hparse
  · next p hp =>
    simp only [Bool.and_eq_true, decide_eq_true_eq, List.all_eq_true] at hparse
    obtain ⟨⟨closed, outside⟩, hsteps⟩ := hparse
    exact ⟨p, hp, closed, outside, hsteps, reduce_faithful hp closed outside⟩
  · cases hparse

end Program
end PiCalculus
