import Mathlib
import PiCalculus.Proofs.Binding.Resolution

/-! Processes without free names. All that is used is introduced around it, and where the introduced
names have different labels this does not depend on what the labels are. The channel of a receive
counts as standing outside its variables here. -/

namespace PiCalculus

variable {ν : Type}

theorem Scope.lookup_of_mem {label : ν → String} {scope : Scope ν} {n : ν}
    (h : (scope.map label).Nodup) (hn : n ∈ scope) : scope.lookup label n = some n := by
  cases hl : scope.lookup label n with
  | none => exact absurd (List.mem_map_of_mem hn) (Scope.lookup_eq_none.mp hl)
  | some b =>
    have hb := List.mem_of_find?_eq_some hl
    rw [List.inj_on_of_nodup_map h hb hn (Scope.label_of_lookup hl)]

namespace Process

/-- Whether every name that is used is introduced around it or is one of the names in scope. -/
@[grind =] def Confined (scope : Scope ν) : Process ν → Prop
  | .nil => True
  | .send chan values => ∀ n ∈ chan :: values, n ∈ scope
  | .receive chan vars body => chan ∈ scope ∧ body.Confined (vars.reverse ++ scope)
  | .par ps => ∀ p ∈ ps, p.Confined scope
  | .replicate body => body.Confined scope
  | .restrict name body => body.Confined (name :: scope)
termination_by p => sizeOf p

/-- Whether every name that is used is the innermost one of its label that is in force. -/
@[grind =] def Resolved (label : ν → String) (scope : Scope ν) : Process ν → Prop
  | .nil => True
  | .send chan values => ∀ n ∈ chan :: values, scope.lookup label n = some n
  | .receive chan vars body =>
    scope.lookup label chan = some chan ∧ body.Resolved label (vars.reverse ++ scope)
  | .par ps => ∀ p ∈ ps, p.Resolved label scope
  | .replicate body => body.Resolved label scope
  | .restrict name body => body.Resolved label (name :: scope)
termination_by p => sizeOf p

variable {label : ν → String} {scope : Scope ν} {p q : Process ν}

theorem scoped_confined :
    Scoped (fun scope n => n ∈ scope) (fun _ => []) (Confined : Scope ν → Process ν → Prop) where
  leave h hne := by
    simp only [List.mem_append, List.mem_cons] at h ⊢
    tauto
  side_subset vars := List.nil_subset vars
  nil scope := by simp [Confined]
  send scope chan values := by rw [Confined]
  receive scope chan vars body := by rw [Confined, List.nil_append]
  par scope ps := by rw [Confined]
  replicate scope body := by rw [Confined]
  restrict scope name body := by rw [Confined]

theorem scoped_resolved :
    Scoped (fun scope n => scope.lookup label n = some n) (fun _ => []) (Resolved label) where
  leave h hne := by
    have hres : IsResolved label (fun _ => True) _ _ := .inl h
    exact (hres.leave hne).resolve_right fun hnone => hnone.2 trivial
  side_subset vars := List.nil_subset vars
  nil scope := by simp [Resolved]
  send scope chan values := by rw [Resolved]
  receive scope chan vars body := by rw [Resolved, List.nil_append]
  par scope ps := by rw [Resolved]
  replicate scope body := by rw [Resolved]
  restrict scope name body := by rw [Resolved]

theorem Resolved.confined (h : p.Resolved label scope) : p.Confined scope :=
  scoped_resolved.mono scoped_confined (fun _ _ _ hfound => List.mem_of_find?_eq_some hfound) h

namespace Confined

theorem resolved (h : p.Confined scope) (hd : ((scope ++ p.binders).map label).Nodup) :
    p.Resolved label scope := by
  refine scoped_confined.imp_of_nodup scoped_resolved Scope.lookup_of_mem (fun hinner hn => ?_) h hd
  rw [List.map_append] at hinner
  exact Scope.lookup_of_mem hinner.of_append_right hn

theorem wellBound {introduced : ν → Prop} (h : p.Confined scope)
    (hd : ((scope ++ p.binders).map label).Nodup) : p.WellBound label introduced scope :=
  scoped_confined.imp_of_nodup scoped_wellBound
    (fun hscope hn => .inl (Scope.lookup_of_mem hscope hn))
    (fun hinner hn => .inl (Scope.lookup_of_mem hinner (List.mem_append_right _ hn))) h hd

theorem free_eq_nil (h : p.Confined []) : p.free label = [] :=
  List.eq_nil_iff_forall_not_mem.mpr fun _ hn => List.not_mem_nil (scoped_confined.of_free h hn)

theorem mem_binders (h : p.Confined scope) {n : ν} (hn : n ∈ p.occurrences) :
    n ∈ scope ∨ n ∈ p.binders :=
  scoped_confined.mem_occurrences id h hn

end Confined

theorem WellBound.resolved (h : p.WellBound label (fun _ => True) scope)
    (hp : ∀ i ∈ p.inputs, label i.1 ∉ i.2.map label) : p.Resolved label scope := by
  have found : ∀ {scope : Scope ν} {n}, IsResolved label (fun _ => True) scope n →
      scope.lookup label n = some n := fun h => h.resolve_right fun h => h.2 trivial
  induction p generalizing scope with
  | nil => simp [Resolved]
  | send chan values =>
    rw [WellBound] at h
    rw [Resolved]
    exact fun n hn => found (h n hn)
  | receive chan vars body ih =>
    rw [WellBound] at h
    rw [inputs, List.forall_mem_cons] at hp
    -- The channel is looked up behind the variables, none of which has its label.
    have hvars : Scope.lookup label vars.reverse chan = none := by
      rw [Scope.lookup_eq_none, List.map_reverse, List.mem_reverse]
      exact hp.1
    have hchan := found h.1
    rw [Scope.lookup_append, hvars, Option.none_or] at hchan
    rw [Resolved]
    exact ⟨hchan, ih h.2 hp.2⟩
  | par ps ih =>
    rw [WellBound] at h
    rw [inputs] at hp
    rw [Resolved]
    exact fun p hm => ih p hm (h p hm) fun i hi => hp i (List.mem_flatMap.mpr ⟨p, hm, hi⟩)
  | replicate body ih =>
    rw [WellBound] at h
    rw [inputs] at hp
    rw [Resolved]
    exact ih h hp
  | restrict name body ih =>
    rw [WellBound] at h
    rw [inputs] at hp
    rw [Resolved]
    exact ih h hp

/-- Binding resolves all that is used in a closed process in which no channel has the label of a
variable that is received on it. -/
theorem bind_resolved (closed : p.free label = [])
    (hp : ∀ i ∈ p.inputs, label i.1 ∉ i.2.map label) : (p.bind label).Resolved label [] := by
  have hbound : (p.bind label).WellBound label (fun _ => True) [] :=
    bindIn_wellBound tracks_nil (by simp [closed])
  refine hbound.resolved ?_
  have hinputs := congrArg inputs (map_bind label p)
  rw [inputs_map, inputs_map] at hinputs
  intro i hi
  obtain ⟨j, hj, heq⟩ := List.mem_map.mp (hinputs ▸ List.mem_map_of_mem hi)
  injection heq with hchan hvars
  rw [← hchan, ← hvars]
  exact hp j hj

/-- Where all binders have different labels, a channel that is not free does not have the label of a
variable that is received on it. -/
theorem label_notMem_of_mem_inputs (ls : List String) (hp : ∀ n ∈ p.free label, label n ∈ ls)
    (hd : (ls ++ p.binders.map label).Nodup) : ∀ i ∈ p.inputs, label i.1 ∉ i.2.map label := by
  induction p generalizing ls with
  | nil => simp [inputs]
  | send chan values => simp [inputs]
  | receive chan vars body ih =>
    simp only [free, List.forall_mem_cons, List.mem_filter, decide_eq_true_eq] at hp
    rw [binders, List.map_append] at hd
    rw [inputs, List.forall_mem_cons]
    refine ⟨fun hc => ?_, ih (ls ++ vars.map label) (fun n hn => ?_) ?_⟩
    · exact List.disjoint_of_nodup_append hd hp.1 (List.mem_append_left _ hc)
    · by_cases hv : label n ∈ vars.map label
      · exact List.mem_append_right _ hv
      · exact List.mem_append_left _ (hp.2 n ⟨hn, hv⟩)
    · rwa [List.append_assoc]
  | par ps ih =>
    rw [free] at hp
    rw [inputs]
    intro i hi
    obtain ⟨p, hm, hip⟩ := List.mem_flatMap.mp hi
    refine ih p hm ls (fun n hn => hp n (List.mem_flatMap.mpr ⟨p, hm, hn⟩)) ?_ i hip
    exact hd.sublist ((List.Sublist.refl ls).append ((binders_sublist_par hm).map label))
  | replicate body ih =>
    rw [free] at hp
    rw [binders] at hd
    rw [inputs]
    exact ih ls hp hd
  | restrict name body ih =>
    simp only [free, List.mem_filter, decide_eq_true_eq] at hp
    rw [binders, List.map_cons] at hd
    rw [inputs]
    refine ih (label name :: ls) (fun n hn => ?_) (List.perm_middle.nodup_iff.mp hd)
    by_cases hl : label n = label name
    · exact hl ▸ List.mem_cons_self
    · exact List.mem_cons_of_mem _ (hp n ⟨hn, hl⟩)

theorem bind_confined (closed : p.free label = []) (hd : (p.binders.map label).Nodup) :
    (p.bind label).Confined [] :=
  (bind_resolved closed (label_notMem_of_mem_inputs [] (by simp [closed]) hd)).confined

end Process
end PiCalculus
