import Mathlib
import PiCalculus.Proofs.Binding.Resolution
import PiCalculus.Proofs.Reduction.Step
import PiCalculus.Proofs.Store.Loading

/-! When a communication puts the sent values for the received variables. Values are put by
relabelling names, so a binder on the way can get hold of a value that it has nothing to do with.
This is the only thing that can go wrong. -/

namespace PiCalculus

open Process

/-- A process that has been bound, all of whose names may still be written to. -/
structure Store.Bound (s : Store) (p : Process Name) : Prop where
  live : ∀ n ∈ p.occurrences, s.isLive n
  mutable : ∀ n ∈ p.occurrences, s.isConstant n = false
  nodup : p.binders.Nodup
  resolved : p.WellBound s.label (· ∈ p.binders) []

theorem Store.bound_load (written : Process Occurrence) :
    (Store.empty.load written).2.Bound
      ((Store.empty.load written).1.bind (Store.empty.load written).2.label) := by
  generalize hl : Store.empty.load written = loaded
  obtain ⟨p, s⟩ := loaded
  have hocc : (p.bind s.label).occurrences ⊆ p.occurrences := fun n hn =>
    (mem_occurrences_bindIn hn).resolve_left List.not_mem_nil
  -- Loading makes a new name of every occurrence.
  have hnodup : (p.binders ++ p.usedNames).Nodup := by
    have h := Store.empty.load_occurrences_nodup written
    rw [hl] at h
    exact p.occurrences_perm.nodup_iff.mp h
  have hbinders : (p.bind s.label).binders = p.binders := binders_bindIn ..
  have hentry : ∀ n ∈ (p.bind s.label).occurrences, ∃ o : Occurrence, s.get? n = some o.entry := by
    intro n hn
    have hn' : n ∈ (Store.empty.load written).1.occurrences := by
      rw [hl]
      exact hocc hn
    obtain ⟨o, -, ho⟩ := Store.empty.get?_load written hn'
    rw [hl] at ho
    exact ⟨o, ho⟩
  refine ⟨fun n hn => ?_, fun n hn => ?_, ?_, ?_⟩
  · obtain ⟨o, ho⟩ := hentry n hn
    simp [Store.isLive, ho]
  · obtain ⟨⟨label, hint, span⟩, ho⟩ := hentry n hn
    rw [Store.isConstant, ho]
    cases hint <;> rfl
  · rw [hbinders]
    exact (List.nodup_append.mp hnodup).1
  · rw [hbinders]
    refine bindIn_wellBound tracks_nil fun n hn _ hb => ?_
    exact (List.nodup_append.mp hnodup).2.2 n hb n (p.free_subset_usedNames _ hn) rfl

namespace Redex

/-- The labels of a composition after a communication, where no other component has a name with a
new label. -/
theorem map_contract {s : Store} {ps : List (Process Name)} {r : Redex Name}
    (h : ∀ i p, ps[i]? = some p → i ≠ r.receiver → ∀ n ∈ p.occurrences,
      r.newLabel s.label n = s.label n) :
    (Process.par (r.contract ps)).map (r.newLabel s.label) =
      .par (((ps.map (Process.map s.label)).set r.sender .nil).set r.receiver
        (r.body.map (r.newLabel s.label))) := by
  rw [Process.map, par.injEq, contract, List.map_set, List.map_set, Process.map]
  refine List.ext_getElem? fun i => ?_
  simp only [List.getElem?_set, List.length_set, List.length_map]
  split
  · rfl
  · split
    · rfl
    · next hr hs =>
      rw [List.getElem?_map, List.getElem?_map]
      cases hi : ps[i]? with
      | none => rfl
      | some p => exact congrArg some (map_congr (h i p hi (Ne.symm hr)))

end Redex

namespace Store.Bound

variable {s : Store} {p : Process Name} {path : List Nat} {ps : List (Process Name)}
  {r : Redex Name}

/-- A name with a new label is introduced by the receive or behind it. -/
theorem mem_binders_of_newLabel (h : s.Bound p) (hr : s.redex? p = some (path, ps, r)) {n : Name}
    (hn : r.newLabel s.label n ≠ s.label n) : n ∈ r.vars ++ r.body.binders := by
  obtain ⟨hleads, -, other, hreceive, -⟩ := of_redex? hr
  obtain ⟨scope, hpar, -⟩ := h.resolved.leads hleads h.nodup
  rw [WellBound] at hpar
  have hwell := hpar _ (List.mem_of_getElem? hreceive)
  rw [WellBound] at hwell
  have hl : s.label n ∈ r.vars.map s.label := by
    by_contra hl
    exact hn (Redex.newLabel_of_notMem hl)
  have hmem : n ∈ r.body.prefixNames := by
    by_contra hmem
    exact hn (if_neg hmem)
  have := hwell.2.mem_of_label_mem hmem (by simpa using hl)
  simpa using this

/-- Such a name stands nowhere but in the receive. -/
theorem newLabel_eq_of_outside (h : s.Bound p) (hr : s.redex? p = some (path, ps, r)) {n : Name}
    (hn : n ∈ (p.replaceAt path .nil).occurrences ∨
      ∃ i q, ps[i]? = some q ∧ i ≠ r.receiver ∧ n ∈ q.occurrences) :
    r.newLabel s.label n = s.label n := by
  by_contra hne
  have hb := h.mem_binders_of_newLabel hr hne
  obtain ⟨hleads, -, other, hreceive, -⟩ := of_redex? hr
  have hreceiver : (Process.par ps).Leads [r.receiver] (.receive other r.vars r.body) :=
    .of_getElem? hreceive (.here _)
  have hb' : n ∈ (Process.receive other r.vars r.body).binders := by rwa [binders]
  have hi : n ∈ p.binders := hleads.binders_subset (hreceiver.binders_subset hb')
  obtain ⟨scope, hpar, hnodup⟩ := h.resolved.leads hleads h.nodup
  rcases hn with hn | ⟨i, q, hq, hne, hn⟩
  · exact scoped_wellBound.notMem_outside (fun hres => hres.mem hi) h.resolved h.nodup
      hleads.at?_eq (hreceiver.binders_subset hb') hn
  · refine scoped_wellBound.notMem_outside (fun hres => hres.mem hi) hpar hnodup hreceiver.at?_eq
      hb' ?_
    rw [replaceAt, occurrences, List.mem_flatMap]
    refine ⟨q, List.mem_of_getElem? (i := i) ?_, hn⟩
    rw [List.getElem?_modify_ne _ _ (Ne.symm hne), hq]

theorem map_reduct (h : s.Bound p) (hr : s.redex? p = some (path, ps, r)) :
    (p.replaceAt path (.par (r.contract ps))).map (r.newLabel s.label) =
      (p.map s.label).replaceAt path
        (.par (((ps.map (Process.map s.label)).set r.sender .nil).set r.receiver
          (r.body.map (r.newLabel s.label)))) := by
  obtain ⟨hleads, -⟩ := of_redex? hr
  rw [hleads.map_replaceAt fun n hn => h.newLabel_eq_of_outside hr (.inl hn), Redex.map_contract]
  exact fun i q hq hi n hn => h.newLabel_eq_of_outside hr (.inr ⟨i, q, hq, hi, hn⟩)

theorem occurrences_reduct (hr : s.redex? p = some (path, ps, r)) :
    (p.replaceAt path (.par (r.contract ps))).occurrences ⊆ p.occurrences := by
  have hnil : (Process.nil : Process Name).occurrences = [] := by rw [occurrences]
  obtain ⟨other, -, hperm⟩ := gathered_reduct gathers_occurrences hnil hr
  intro n hn
  exact hperm.symm.subset (List.mem_append_right _ (List.mem_append_right _ hn))

theorem label_relabel_reduct (h : s.Bound p) {n : Name} (hn : n ∈ p.occurrences) :
    (s.relabel r.body.prefixNames
        (substitution (r.vars.map s.label) (r.values.map s.label))).label n =
      r.newLabel s.label n := by
  rw [label_relabel (h.live n hn) (h.mutable n hn), Redex.newLabel]

theorem read_par_set_iff {ps : List (Process String)} {i : Nat} (hi : i < ps.length)
    {p q : Process String} {ρ : Environment} {depth : Nat} :
    (Process.par (ps.set i p)).read ρ depth = (Process.par (ps.set i q)).read ρ depth ↔
      p.read ρ depth = q.read ρ depth := by
  simp only [Process.read, par.injEq, List.map_set]
  constructor
  · intro h
    have hget := congrArg (·[i]?) h
    simpa [hi] using hget
  · intro h
    rw [h]

/-- A communication leaves what the calculus asks for, up to renaming of bound names, exactly if
under their new labels the binders of the continuation bind what they have bound before. -/
theorem communicates (h : s.Bound p) (hr : s.redex? p = some (path, ps, r))
    (even : r.values.length = r.vars.length) :
    ∃ t, Communicates path r.sender r.receiver (p.map s.label) t ∧
      (AlphaEquivalent ((p.replaceAt path (.par (r.contract ps))).map (r.newLabel s.label)) t ↔
        r.body.KeepsBinding s.label (r.newLabel s.label)) := by
  obtain ⟨hleads, hsend, other, hreceive, hchan⟩ := of_redex? hr
  have hleads' := hleads.map s.label
  rw [Process.map] at hleads'
  have hsend' : (ps.map (Process.map s.label))[r.sender]? =
      some (.send (s.label r.chan) (r.values.map s.label)) := by
    rw [List.getElem?_map, hsend, Option.map_some, Process.map]
  have hreceive' : (ps.map (Process.map s.label))[r.receiver]? =
      some (.receive (s.label r.chan) (r.vars.map s.label) (r.body.map s.label)) := by
    rw [List.getElem?_map, hreceive, Option.map_some, Process.map, hchan]
  refine ⟨_, .intro hleads' hsend' hreceive' (by simpa using even), ?_⟩
  obtain ⟨inner, depth, below, hread⟩ := hleads'.read_replaceAt_iff Environment.below_free
  have hfree : ∀ n ∈ r.body.free s.label, r.newLabel s.label n =
      substitution (r.vars.map s.label) (r.values.map s.label) (s.label n) := fun n hn => by
    rw [Redex.newLabel, if_pos]
    exact r.body.usedNames_subset_prefixNames (r.body.free_subset_usedNames s.label hn)
  -- Both sides are the composition up to the continuation, which is read in the environment there
  -- under the new labels and, for what the calculus asks for, after the substitution.
  have hcomp : Environment.Below
      (inner ∘ substitution (r.vars.map s.label) (r.values.map s.label)) depth :=
    fun l => below _
  have hlen : r.receiver < ((ps.map (Process.map s.label)).set r.sender .nil).length := by
    simpa using (List.getElem?_eq_some_iff.mp hreceive).1
  rw [AlphaEquivalent, nameless, nameless, h.map_reduct hr, hread, read_par_set_iff hlen,
    read_instantiate, read_map_eq_iff _ hcomp below]
  exact and_iff_left fun n hn => congrArg inner (hfree n hn)

end Store.Bound

namespace Program

theorem bound_of_parse {source : String} {p : Program} (h : Program.parse source = .ok p) :
    p.store.Bound (p.process.bind p.store.label) := by
  obtain ⟨written, -, rfl⟩ := parse_eq_ok_iff_all.mp h
  exact Store.bound_load written

theorem reduceOnce_alphaEquivalent_iff {source : String} {p : Program} {q : Reduct}
    (hp : Program.parse source = .ok p)
    (hq : p.store.reduceOnce (p.process.bind p.store.label) = .ok (some q)) :
    ∃ path ps r t, p.store.redex? (p.process.bind p.store.label) = some (path, ps, r) ∧
      Communicates path r.sender r.receiver
        ((p.process.bind p.store.label).map p.store.label) t ∧
      (AlphaEquivalent ((q.process.bind q.store.label).map q.store.label) t ↔
        r.body.KeepsBinding p.store.label (r.newLabel p.store.label)) := by
  have hb := bound_of_parse hp
  obtain ⟨path, ps, r, hr, even, rfl⟩ := Store.of_reduceOnce hq
  obtain ⟨t, ht, hiff⟩ := hb.communicates hr even
  refine ⟨path, ps, r, t, hr, ht, ?_⟩
  dsimp only
  rw [map_bind, ← hiff, map_congr fun n hn =>
    hb.label_relabel_reduct (Store.Bound.occurrences_reduct hr hn)]

theorem reduceOnce_alphaEquivalent_iff_shadowed :
    ∃ p q, Program.parse "a<b> | a(x).(new c)(x<c> | x(x).x<>)" = .ok p ∧
      p.store.reduceOnce (p.process.bind p.store.label) = .ok (some q) ∧
      ∃ path ps r t, p.store.redex? (p.process.bind p.store.label) = some (path, ps, r) ∧
        Communicates path r.sender r.receiver
          ((p.process.bind p.store.label).map p.store.label) t ∧
        (AlphaEquivalent ((q.process.bind q.store.label).map q.store.label) t ↔
          r.body.KeepsBinding p.store.label (r.newLabel p.store.label)) := by
  have hsteps : (match Program.parse "a<b> | a(x).(new c)(x<c> | x(x).x<>)" with
      | .ok p =>
        match p.store.reduceOnce (p.process.bind p.store.label) with
        | .ok (some _) => true
        | .ok none | .error _ => false
      | .error _ => false) = true := by decide +kernel
  split at hsteps
  · next p hp =>
    split at hsteps
    · next q hq => exact ⟨p, q, hp, hq, reduceOnce_alphaEquivalent_iff hp hq⟩
    · cases hsteps
    · cases hsteps
  · cases hsteps

/-- A value that is sent falls under a restriction of its label in the continuation. -/
theorem sent_value_captured :
    ∃ p q path i j t, Program.parse "a<b> | a(x).(new b)x<b>" = .ok p ∧
      p.store.reduceOnce (p.process.bind p.store.label) = .ok (some q) ∧
      Communicates path i j ((p.process.bind p.store.label).map p.store.label) t ∧
      ¬ AlphaEquivalent ((q.process.bind q.store.label).map q.store.label) t := by
  have hsteps : (match Program.parse "a<b> | a(x).(new b)x<b>" with
      | .ok p =>
        match p.store.reduceOnce (p.process.bind p.store.label) with
        | .ok (some q) => ((q.process.bind q.store.label).map q.store.label).freeLabels.isEmpty
        | .ok none | .error _ => false
      | .error _ => false) = true := by decide +kernel
  have hwritten : (match Program.parse "a<b> | a(x).(new b)x<b>" with
      | .ok p => (p.process.bind p.store.label).map p.store.label
      | .error _ => .nil) =
        .par [.send "a" ["b"], .receive "a" ["x"] (.restrict "b" (.send "x" ["b"]))] := by cbv
  split at hsteps
  · next p hp =>
    rw [hp] at hwritten
    change (p.process.bind p.store.label).map p.store.label = _ at hwritten
    split at hsteps
    · next q hq =>
      obtain ⟨t, ht, hfree⟩ : ∃ t, Communicates [] 0 1 (.par [.send "a" ["b"],
          .receive "a" ["x"] (.restrict "b" (.send "x" ["b"]))]) t ∧ "b" ∈ t.freeLabels :=
        ⟨_, .intro (.here _) rfl rfl rfl, by decide +kernel⟩
      refine ⟨p, q, [], 0, 1, t, hp, hq, hwritten ▸ ht, fun h => ?_⟩
      have hcaught := h.mem_freeLabels.mpr hfree
      rw [List.isEmpty_iff.mp hsteps] at hcaught
      exact List.not_mem_nil hcaught
    · cases hsteps
    · cases hsteps
  · cases hsteps

end Program
end PiCalculus
