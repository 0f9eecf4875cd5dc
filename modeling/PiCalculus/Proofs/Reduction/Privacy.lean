import Mathlib
import PiCalculus.Proofs.Binding.Unbound
import PiCalculus.Proofs.Reduction.Faithful

/-! Private names stay private. A run frees no label, except at the channel of a receive that has
the label among its own variables: these are in force for the channel, so that a restriction of the
label holds nothing there and may be dropped. -/

namespace PiCalculus

open Process

namespace Store.Bound

variable {s t : Store} {p q : Process Name} {path : List Nat} {ps : List (Process Name)}
  {r : Redex Name}

theorem newLabel_of_notMem_binders (h : s.Bound p) (hr : s.redex? p = some (path, ps, r)) {n : Name}
    (hn : n ∉ p.binders) : r.newLabel s.label n = s.label n := by
  by_contra hne
  obtain ⟨hleads, -, other, hreceive, -⟩ := of_redex? hr
  have hreceiver : (Process.par ps).Leads [r.receiver] (.receive other r.vars r.body) :=
    .of_getElem? hreceive (.here _)
  refine hn (hleads.binders_subset (hreceiver.binders_subset ?_))
  rw [binders]
  exact h.mem_binders_of_newLabel hr hne

/-- What no binder holds after a communication has its label from a name that is not held inside the
composition: itself or, for a variable, a value that was sent. -/
theorem exists_of_unbound_contract (h : s.Bound p) (hr : s.redex? p = some (path, ps, r))
    (even : r.values.length = r.vars.length) {inner : Scope Name}
    (hpar : (Process.par ps).WellBound s.label (· ∈ p.binders) inner) {n : Name}
    (hn : n ∈ (Process.par (r.contract ps)).unbound (r.newLabel s.label)) :
    ∃ m, (n = m ∨ n ∈ r.vars ∧ m ∈ r.values) ∧ r.newLabel s.label n = r.newLabel s.label m ∧
      IsResolved s.label (· ∈ p.binders) inner m := by
  obtain ⟨-, hsend, other, hreceive, -⟩ := of_redex? hr
  have hne : r.sender ≠ r.receiver := by
    rintro heq
    rw [heq, hreceive] at hsend
    cases hsend
  rw [WellBound] at hpar
  rw [unbound] at hn
  obtain ⟨q, hq, hnq⟩ := List.mem_flatMap.mp hn
  rcases List.mem_or_eq_of_mem_set hq with hq | rfl
  · rcases List.mem_or_eq_of_mem_set hq with hq | rfl
    · exact ⟨n, .inl rfl, rfl, (hpar q hq).isResolved_of_unbound hnq⟩
    · simp [unbound] at hnq
  have hsent := hpar _ (List.mem_of_getElem? hsend)
  have hreceived := hpar _ (List.mem_of_getElem? hreceive)
  rw [WellBound] at hsent
  rw [WellBound] at hreceived
  have hbody := hreceived.2.isResolved_of_unbound hnq
  by_cases hv : n ∈ r.vars
  · -- The variable has the label of a value, which keeps its own one.
    have hused := r.body.usedNames_subset_prefixNames (r.body.unbound_subset_usedNames _ hnq)
    have hl : substitution (r.vars.map s.label) (r.values.map s.label) (s.label n) ∈
        r.values.map s.label :=
      substitution_mem (by simpa using even) (List.mem_map_of_mem hv)
    obtain ⟨v, hvalue, heq⟩ := List.mem_map.mp hl
    have hkeep : r.newLabel s.label v = s.label v := by
      refine h.newLabel_eq_of_outside hr (.inr ⟨r.sender, _, hsend, hne, ?_⟩)
      rw [occurrences]
      exact List.mem_cons_of_mem _ hvalue
    refine ⟨v, .inr ⟨hv, hvalue⟩, ?_, hsent v (List.mem_cons_of_mem _ hvalue)⟩
    rw [hkeep, heq, Redex.newLabel, if_pos hused]
  · exact ⟨n, .inl rfl, rfl, scoped_wellBound.of_append hbody (by simpa using hv)⟩

theorem exists_of_unbound_reduct (h : s.Bound p) (hr : s.redex? p = some (path, ps, r))
    (even : r.values.length = r.vars.length) {n : Name}
    (hn : n ∈ (p.replaceAt path (.par (r.contract ps))).unbound (r.newLabel s.label)) :
    ∃ m, (n = m ∨ n ∈ r.vars ∧ m ∈ r.values) ∧ r.newLabel s.label n = r.newLabel s.label m ∧
      m ∉ p.binders := by
  have hleads := (of_redex? hr).1
  obtain ⟨m, hfrom, hnew, hres⟩ := hleads.exists_isResolved_of_unbound h.resolved
    (fun n => .inl rfl) (fun _ hpar _ => h.exists_of_unbound_contract hr even hpar) hn
  exact ⟨m, hfrom, hnew, not_introduced_of_isResolved hres⟩

theorem notMem_binders_of_unbound_reduct (h : s.Bound p) (hr : s.redex? p = some (path, ps, r))
    (even : r.values.length = r.vars.length) {n : Name}
    (hn : n ∈ (p.replaceAt path (.par (r.contract ps))).unbound (r.newLabel s.label)) :
    n ∉ (p.replaceAt path (.par (r.contract ps))).binders := by
  have hperm := Apart.binders_reduct hr
  have hdisjoint := List.disjoint_of_nodup_append (hperm.nodup_iff.mpr h.nodup)
  obtain ⟨m, rfl | ⟨hv, -⟩, -, hm⟩ := h.exists_of_unbound_reduct hr even hn
  · exact fun hb => hm (hperm.subset (List.mem_append_left _ hb))
  · exact fun hb => hdisjoint hb hv

theorem unboundLabels_reduct_subset (h : s.Bound p) (hr : s.redex? p = some (path, ps, r))
    (even : r.values.length = r.vars.length) :
    ((p.replaceAt path (.par (r.contract ps))).map (r.newLabel s.label)).unboundLabels ⊆
      (p.map s.label).unboundLabels := by
  rw [unboundLabels_map, unboundLabels_map]
  intro l hl
  obtain ⟨n, hn, rfl⟩ := List.mem_map.mp hl
  obtain ⟨m, hfrom, hnew, hm⟩ := h.exists_of_unbound_reduct hr even hn
  have hocc : m ∈ p.occurrences := by
    rcases hfrom with rfl | ⟨-, hvalue⟩
    · exact occurrences_reduct hr
        (usedNames_subset_occurrences _ (unbound_subset_usedNames _ _ hn))
    · obtain ⟨hleads, hsend, -⟩ := of_redex? hr
      rw [← hleads.replaceAt_self, hleads.mem_occurrences_replaceAt, occurrences]
      refine .inr (List.mem_flatMap.mpr ⟨_, List.mem_of_getElem? hsend, ?_⟩)
      rw [occurrences]
      exact List.mem_cons_of_mem _ hvalue
  -- A name that is not introduced occurs only by being used.
  have hused : m ∈ p.usedNames :=
    (List.mem_append.mp (p.occurrences_perm.mem_iff.mp hocc)).resolve_left hm
  rw [hnew, h.newLabel_of_notMem_binders hr hm]
  exact List.mem_map_of_mem (h.resolved.mem_unbound hused List.not_mem_nil hm).1

/-- Tidying up binds a process in which no introduced name stands unheld, and it frees nothing. -/
theorem of_simplify (live : ∀ n ∈ q.occurrences, t.isLive n)
    (mutable : ∀ n ∈ q.occurrences, t.isConstant n = false) (nodup : q.binders.Nodup)
    (held : ∀ n ∈ q.unbound t.label, n ∉ q.binders) :
    t.Bound (q.simplify t.label) ∧
      ((q.simplify t.label).map t.label).unboundLabels ⊆ (q.map t.label).unboundLabels := by
  have hbound : (q.bind t.label).WellBound t.label (· ∈ q.binders) [] :=
    bindIn_wellBound_of_unbound tracks_nil fun n hn _ => held n hn
  have hunused := dropsUnused (q.bind t.label)
  have hsub := binders_simplify_sublist t.label q
  have htidy : (q.simplify t.label).WellBound t.label (· ∈ q.binders) [] :=
    scoped_wellBound.prune (scoped_wellBound.dropRestrictions hbound hunused)
  have hocc := q.occurrences_simplify_subset t.label
  refine ⟨⟨fun n hn => live n (hocc hn), fun n hn => mutable n (hocc hn), nodup.sublist hsub,
    htidy.of_introduced fun n hn => hsub.subset hn⟩, ?_⟩
  rw [← map_bind t.label q, unboundLabels_map, unboundLabels_map, simplify, unbound_prune]
  exact List.map_subset _ (hbound.unbound_dropRestrictions_subset hunused)

theorem reduceOnce (h : s.Bound p) {q : Reduct} (hq : s.reduceOnce p = .ok (some q)) :
    q.store.Bound (q.process.simplify q.store.label) ∧
      ((q.process.simplify q.store.label).map q.store.label).unboundLabels ⊆
        (p.map s.label).unboundLabels := by
  obtain ⟨path, ps, r, hr, even, rfl⟩ := of_reduceOnce hq
  dsimp only
  have hocc := occurrences_reduct hr
  have hlabel : ∀ n ∈ (p.replaceAt path (.par (r.contract ps))).occurrences,
      r.newLabel s.label n = (s.relabel r.body.prefixNames
        (substitution (r.vars.map s.label) (r.values.map s.label))).label n := fun n hn =>
    (h.label_relabel_reduct (hocc hn)).symm
  have hheld := fun n => h.notMem_binders_of_unbound_reduct hr even (n := n)
  have hsubset := h.unboundLabels_reduct_subset hr even
  -- On what is left the labels of the store are the new labels.
  rw [unbound_congr hlabel] at hheld
  rw [map_congr hlabel] at hsubset
  have hperm := Apart.binders_reduct hr
  obtain ⟨hbound, htidy⟩ := of_simplify
    (t := s.relabel r.body.prefixNames
      (substitution (r.vars.map s.label) (r.values.map s.label)))
    (fun n hn => by
      rw [isLive_relabel]
      exact h.live n (hocc hn))
    (fun n hn => by
      rw [isConstant_relabel]
      exact h.mutable n (hocc hn))
    (List.Nodup.of_append_left (hperm.nodup_iff.mpr h.nodup)) hheld
  exact ⟨hbound, fun l hl => hsubset (htidy hl)⟩

theorem run (h : s.Bound p) (n : Nat) :
    (s.reduce p n).store.Bound (s.reduce p n).process ∧
      ((s.reduce p n).process.map (s.reduce p n).store.label).unboundLabels ⊆
        (p.map s.label).unboundLabels := by
  induction n with
  | zero => exact ⟨h, fun _ hl => hl⟩
  | succ n ih =>
    rcases s.reduce_succ p n with ⟨q, hq, -, -, hstore, hprocess⟩ | ⟨-, hstore, hprocess⟩
    · obtain ⟨hbound, hsubset⟩ := ih.1.reduceOnce hq
      rw [hstore, hprocess]
      exact ⟨hbound, fun l hl => ih.2 (hsubset hl)⟩
    · rwa [hstore, hprocess]

end Store.Bound

namespace Program

/-- What comes free in a run was free before, or it is the channel of a receive that has its label
among its own variables. -/
theorem reduce_frees_nothing {source : String} {p : Program}
    (parsed : Program.parse source = .ok p) (n : Nat) :
    let reduced := p.store.reduce (p.process.bind p.store.label) n
    let left := reduced.process.map reduced.store.label
    left.unboundLabels ⊆ (p.process.map p.store.label).unboundLabels ∧
      ∀ l ∈ left.freeLabels, l ∈ (p.process.map p.store.label).freeLabels ∨
        ∃ i ∈ left.inputs, i.1 = l ∧ l ∈ i.2 := by
  have hsubset := ((bound_of_parse parsed).run n).2
  rw [map_bind] at hsubset
  refine ⟨hsubset, fun l hl => ?_⟩
  refine (unbound_or_input_of_mem_freeLabels hl).imp_left fun hu => ?_
  exact unbound_subset_free id _ (hsubset hu)

/-- A private name that is sent, and then carries a message itself. -/
theorem reduce_frees_nothing_private :
    ∃ p, Program.parse "(new a)(c<a> | c(x).(x<b> | a(y).y(y).0))" = .ok p ∧
      let reduced := p.store.reduce (p.process.bind p.store.label) 2
      let left := reduced.process.map reduced.store.label
      reduced.steps = 2 ∧
        left.unboundLabels ⊆ (p.process.map p.store.label).unboundLabels ∧
        ∀ l ∈ left.freeLabels, l ∈ (p.process.map p.store.label).freeLabels ∨
          ∃ i ∈ left.inputs, i.1 = l ∧ l ∈ i.2 := by
  obtain ⟨p, hp, hsteps⟩ : ∃ p, Program.parse "(new a)(c<a> | c(x).(x<b> | a(y).y(y).0))" = .ok p ∧
      (p.store.reduce (p.process.bind p.store.label) 2).steps = 2 := by decide +kernel
  exact ⟨p, hp, hsteps, reduce_frees_nothing hp 2⟩

/-- The restriction of the channel is dropped, since the receive takes the channel for the variable
of that label. -/
theorem private_channel_freed :
    ∃ p, Program.parse "(new a)(b<> | b().a(a).0)" = .ok p ∧
      let reduced := p.store.reduce (p.process.bind p.store.label) 1
      "a" ∈ (reduced.process.map reduced.store.label).freeLabels ∧
        "a" ∉ (p.process.map p.store.label).freeLabels := by
  decide +kernel

end Program
end PiCalculus
