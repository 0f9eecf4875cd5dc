import Mathlib
import PiCalculus.Proofs.Binding.Resolution
import PiCalculus.Proofs.Process.Pruning
import PiCalculus.Proofs.Reduction.Tidying

/-! Occurrences that no binder holds. In a process that has been bound a binder is one name with all
that it holds, so whatever the labels of the names become, it goes on to hold them. -/

namespace PiCalculus.Process

variable {ν : Type} {label new : ν → String} {introduced : ν → Prop} {scope inner : Scope ν}

/-- Only the channel of a receive can be free though a binder, a variable of the receive, holds it. -/
theorem unbound_or_input_of_mem_freeLabels {p : Process String} {l : String} (h : l ∈ p.freeLabels) :
    l ∈ p.unboundLabels ∨ ∃ i ∈ p.inputs, i.1 = l ∧ l ∈ i.2 := by
  unfold freeLabels at h
  unfold unboundLabels
  induction p with
  | nil => simp [free] at h
  | send chan values =>
    rw [free] at h
    rw [unbound]
    exact .inl h
  | receive chan vars body ih =>
    simp only [free, List.mem_cons, List.mem_filter, List.map_id, id_eq, decide_eq_true_eq] at h
    simp only [unbound, inputs, List.mem_filter, List.mem_cons, List.map_id, id_eq,
      decide_eq_true_eq, exists_eq_or_imp]
    -- Only here the two lists differ: the channel counts as free although a variable has its label.
    by_cases hl : l ∈ vars
    · have hchan : l = chan := h.resolve_right fun hb => hb.2 hl
      exact .inr (.inl ⟨hchan.symm, hl⟩)
    · rcases h with rfl | ⟨hb, -⟩
      · exact .inl ⟨.inl rfl, hl⟩
      · exact (ih hb).imp (fun hu => ⟨.inr hu, hl⟩) .inr
  | par ps ih =>
    rw [free] at h
    obtain ⟨p, hp, hl⟩ := List.mem_flatMap.mp h
    rw [unbound, inputs]
    refine (ih p hp hl).imp (fun hu => List.mem_flatMap.mpr ⟨p, hp, hu⟩) ?_
    rintro ⟨i, hi, hchan⟩
    exact ⟨i, List.mem_flatMap.mpr ⟨p, hp, hi⟩, hchan⟩
  | replicate body ih =>
    rw [free] at h
    rw [unbound, inputs]
    exact ih h
  | restrict name body ih =>
    rw [free] at h
    rw [unbound, inputs]
    obtain ⟨hb, hl⟩ := List.mem_filter.mp h
    exact (ih hb).imp_left fun hu => List.mem_filter.mpr ⟨hu, hl⟩

theorem not_introduced_of_isResolved {n : ν} (h : IsResolved label introduced [] n) :
    ¬ introduced n := by
  unfold IsResolved at h
  simpa [Scope.lookup] using h

namespace WellBound

variable {p : Process ν}

/-- What no binder inside holds under any new labels is resolved outside. -/
theorem isResolved_of_unbound (h : p.WellBound label introduced scope) {n : ν}
    (hn : n ∈ p.unbound new) : IsResolved label introduced scope n :=
  scoped_wellBound.of_unbound h hn

/-- A used name is held by the binder that introduces it, or by none. -/
theorem mem_unbound_of_used (h : p.WellBound label introduced scope) (hn : n ∈ p.usedNames)
    (hb : n ∉ p.binders) : n ∈ p.unbound label := by
  induction p generalizing scope with
  | nil => simp [usedNames] at hn
  | send chan values =>
    rw [usedNames] at hn
    rwa [unbound]
  | receive chan vars body ih =>
    rw [WellBound] at h
    rw [usedNames, List.mem_cons] at hn
    rw [binders, List.mem_append, not_or] at hb
    have hmem : n ∈ chan :: body.unbound label := by
      rw [List.mem_cons]
      exact hn.imp_right fun hbody => ih h.2 hbody hb.2
    have hres : IsResolved label introduced (vars.reverse ++ scope) n := by
      rcases List.mem_cons.mp hmem with rfl | hbody
      · exact h.1
      · exact h.2.isResolved_of_unbound hbody
    -- With the label of a variable it would be this variable, and so be introduced here.
    rw [unbound, List.mem_filter, decide_eq_true_eq]
    refine ⟨hmem, fun hl => hb.1 ?_⟩
    exact List.mem_reverse.mp (hres.mem_of_label_mem (by simpa using hl))
  | par ps ih =>
    rw [WellBound] at h
    rw [usedNames] at hn
    rw [binders] at hb
    obtain ⟨q, hq, hnq⟩ := List.mem_flatMap.mp hn
    rw [unbound]
    exact List.mem_flatMap.mpr
      ⟨q, hq, ih q hq (h q hq) hnq fun hm => hb (List.mem_flatMap.mpr ⟨q, hq, hm⟩)⟩
  | replicate body ih =>
    rw [WellBound] at h
    rw [usedNames] at hn
    rw [binders] at hb
    rw [unbound]
    exact ih h hn hb
  | restrict name body ih =>
    rw [WellBound] at h
    rw [usedNames] at hn
    rw [binders, List.mem_cons, not_or] at hb
    have hbody := ih h hn hb.2
    have hres : IsResolved label introduced ([name] ++ scope) n := h.isResolved_of_unbound hbody
    rw [unbound, List.mem_filter, decide_eq_true_eq]
    refine ⟨hbody, fun hl => hb.1 ?_⟩
    exact List.mem_singleton.mp (hres.mem_of_label_mem (by simpa using hl))

/-- A used name that is not introduced inside is the one in force outside for its label, or none. -/
theorem isResolved_of_used (h : p.WellBound label introduced scope) {n : ν} (hn : n ∈ p.usedNames)
    (hb : n ∉ p.binders) : IsResolved label introduced scope n :=
  h.isResolved_of_unbound (h.mem_unbound_of_used hn hb)

theorem mem_unbound (h : p.WellBound label introduced scope) {n : ν} (hn : n ∈ p.usedNames)
    (hs : n ∉ scope) (hb : n ∉ p.binders) : n ∈ p.unbound label ∧ label n ∉ scope.map label := by
  refine ⟨h.mem_unbound_of_used hn hb, ?_⟩
  rcases h.isResolved_of_used hn hb with hfound | ⟨hnone, -⟩
  · exact absurd (List.mem_of_find?_eq_some hfound) hs
  · exact Scope.lookup_eq_none.mp hnone

theorem of_introduced {fewer : ν → Prop} (h : p.WellBound label introduced scope)
    (hf : ∀ n, fewer n → introduced n) : p.WellBound label fewer scope := by
  have key : ∀ {scope : Scope ν} {n}, IsResolved label introduced scope n →
      IsResolved label fewer scope n := fun h => h.imp_right fun h => ⟨h.1, fun hn => h.2 (hf _ hn)⟩
  induction p generalizing scope with
  | nil => simp [WellBound]
  | send chan values =>
    rw [WellBound] at h ⊢
    exact fun n hn => key (h n hn)
  | receive chan vars body ih =>
    rw [WellBound] at h ⊢
    exact ⟨key h.1, ih h.2⟩
  | par ps ih =>
    rw [WellBound] at h ⊢
    exact fun p hp => ih p hp (h p hp)
  | replicate body ih =>
    rw [WellBound] at h ⊢
    exact ih h
  | restrict name body ih =>
    rw [WellBound] at h ⊢
    exact ih h

variable {drop : ν → Bool}

/-- Dropping restrictions of names that are not used takes no binder from an occurrence. -/
theorem unbound_dropRestrictions_subset (h : p.WellBound label introduced scope)
    (unused : p.DropsUnused drop) : (p.dropRestrictions drop).unbound label ⊆ p.unbound label := by
  induction p generalizing scope with
  | nil => simp [Process.dropRestrictions]
  | send chan values => simp [Process.dropRestrictions]
  | receive chan vars body ih =>
    rw [WellBound] at h
    rw [DropsUnused] at unused
    rw [Process.dropRestrictions, unbound, unbound]
    exact List.filter_subset _ (List.cons_subset_cons _ (ih h.2 unused))
  | par ps ih =>
    rw [WellBound] at h
    rw [DropsUnused] at unused
    rw [Process.dropRestrictions, unbound, unbound, List.flatMap_map]
    intro n hn
    obtain ⟨p, hp, hnp⟩ := List.mem_flatMap.mp hn
    exact List.mem_flatMap.mpr ⟨p, hp, ih p hp (h p hp) (unused p hp) hnp⟩
  | replicate body ih =>
    rw [WellBound] at h
    rw [DropsUnused] at unused
    rw [Process.dropRestrictions, unbound, unbound]
    exact ih h unused
  | restrict name body ih =>
    rw [WellBound] at h
    rw [DropsUnused] at unused
    have hbody := ih h unused.2
    rw [Process.dropRestrictions, unbound]
    split
    · next hdrop =>
      intro n hn
      refine List.mem_filter.mpr ⟨hbody hn, ?_⟩
      rw [decide_eq_true_eq]
      intro hl
      -- The restriction would be the innermost binder of the label, so it would be this name.
      have hres := h.isResolved_of_unbound (hbody hn)
      obtain rfl : name = n := by simpa [IsResolved, Scope.lookup, hl.symm] using hres
      have hused := body.unbound_subset_usedNames label (hbody hn)
      exact unused.1 hdrop (body.usedNames_subset_prefixNames hused)
    · rw [unbound]
      exact List.filter_subset _ hbody

end WellBound

theorem collects_unbound (label : ν → String) :
    Collects fun _ : Scope ν => unbound label where
  nil scope := by rw [unbound]
  receive scope chan vars := by
    refine ⟨scope, fun ns => (chan :: ns).filter fun n => label n ∉ vars.map label, fun body => ?_⟩
    rw [unbound]
  par scope ps := by rw [unbound]
  replicate scope body := by rw [unbound]
  restrict scope name :=
    ⟨scope, List.filter fun n => label n ≠ label name, rfl, fun body => by rw [unbound]⟩

theorem unbound_prune (label : ν → String) (p : Process ν) :
    p.prune.unbound label = p.unbound label :=
  (collects_unbound label).prune [] p

theorem collects_usedNames : Collects fun _ : Scope ν => usedNames where
  nil scope := by rw [usedNames]
  receive scope chan vars := ⟨scope, (chan :: ·), fun body => by rw [usedNames]⟩
  par scope ps := by rw [usedNames]
  replicate scope body := by rw [usedNames]
  restrict scope name := ⟨scope, id, rfl, fun body => by rw [usedNames, id]⟩

theorem usedNames_prune (p : Process ν) : p.prune.usedNames = p.usedNames :=
  collects_usedNames.prune [] p

theorem occurrences_simplify_subset [DecidableEq ν] (label : ν → String)
    (p : Process ν) : (p.simplify label).occurrences ⊆ p.occurrences := by
  intro n hn
  have hbound : n ∈ (p.bind label).occurrences := by
    rw [(occurrences_perm _).mem_iff, List.mem_append] at hn ⊢
    refine hn.imp (fun hb => ?_) fun hu => ?_
    · exact ((binders_prune_sublist _).trans (binders_dropRestrictions_sublist _ _)).subset hb
    · rwa [simplify, usedNames_prune, usedNames_dropRestrictions] at hu
  exact (mem_occurrences_bindIn hbound).resolve_left List.not_mem_nil

/-- What no binder holds after a replacement comes from a name that is resolved outside, if that is
so for what is put there. -/
theorem Leads.exists_isResolved_of_unbound {path : List Nat} {p q put : Process ν}
    {comesFrom : ν → ν → Prop} (l : Leads path p q) (h : p.WellBound label introduced scope)
    (self : ∀ n, comesFrom n n)
    (hput : ∀ inner, q.WellBound label introduced inner → ∀ n ∈ put.unbound new,
      ∃ m, comesFrom n m ∧ new n = new m ∧ IsResolved label introduced inner m) {n : ν}
    (hn : n ∈ (p.replaceAt path put).unbound new) :
    ∃ m, comesFrom n m ∧ new n = new m ∧ IsResolved label introduced scope m := by
  induction l generalizing scope with
  | here p =>
    rw [replaceAt] at hn
    exact hput scope h n hn
  | component as l bs ih =>
    rw [replaceAt_component, unbound, List.flatMap_append, List.flatMap_cons, List.mem_append,
      List.mem_append] at hn
    rw [WellBound] at h
    -- Beside the way nothing has changed, and such a name comes from itself.
    have side : ∀ r ∈ as ++ _ :: bs, n ∈ r.unbound new →
        ∃ m, comesFrom n m ∧ new n = new m ∧ IsResolved label introduced scope m :=
      fun r hr hnr => ⟨n, self n, rfl, (h r hr).isResolved_of_unbound hnr⟩
    rcases hn with hn | hn | hn
    · obtain ⟨r, hr, hnr⟩ := List.mem_flatMap.mp hn
      exact side r (by simp [hr]) hnr
    · exact ih (h _ (by simp)) hput hn
    · obtain ⟨r, hr, hnr⟩ := List.mem_flatMap.mp hn
      exact side r (by simp [hr]) hnr
  | replicate l ih =>
    rw [replaceAt, unbound] at hn
    rw [WellBound] at h
    exact ih h hput hn
  | restrict l ih =>
    simp only [replaceAt, unbound, List.mem_filter, decide_eq_true_eq] at hn
    rw [WellBound] at h
    obtain ⟨m, hfrom, hnew, hres⟩ := ih h hput hn.1
    have hinner : IsResolved label introduced ([_] ++ scope) m := hres
    refine ⟨m, hfrom, hnew, scoped_wellBound.of_append hinner fun hname => hn.2 ?_⟩
    rw [hnew, List.mem_singleton.mp hname]

end PiCalculus.Process
