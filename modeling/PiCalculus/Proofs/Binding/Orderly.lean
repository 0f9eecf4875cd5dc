import Mathlib
import PiCalculus.Proofs.Binding.Contained
import PiCalculus.Proofs.Binding.Unbound
import PiCalculus.Proofs.Reduction.Faithful

/-! Processes in which every name is introduced once and used only inside the node that does so.
Binding, tidying up and communicating keep a process so. -/

namespace PiCalculus.Process

variable {ν : Type}

namespace Contained

variable {introduced fewer : ν → Prop} {scope kept : Scope ν} {p q : Process ν} {path : List Nat}
  {label : ν → String}

/-- Occurrences are resolved to names that are kept, of which the introduced ones are in scope. -/
theorem bindIn (h : p.Contained introduced scope) (hk : ∀ n ∈ kept, introduced n → n ∈ scope) :
    (p.bindIn label kept).Contained introduced scope := by
  have resolved : ∀ {kept scope : Scope ν} {n}, (∀ m ∈ kept, introduced m → m ∈ scope) →
      (introduced n → n ∈ scope) → introduced (kept.resolve label n) →
      kept.resolve label n ∈ scope := by
    intro kept scope n hk hn
    unfold Scope.resolve
    cases hl : kept.lookup label n with
    | none => exact hn
    | some b => exact hk b (List.mem_of_find?_eq_some hl)
  induction p generalizing kept scope with
  | nil => simp [Process.bindIn, Contained]
  | send chan values =>
    rw [Contained] at h
    rw [Process.bindIn, Contained, ← List.map_cons, List.forall_mem_map]
    exact fun n hn => resolved hk (h n hn)
  | receive chan vars body ih =>
    rw [Contained] at h
    have hinner : ∀ n ∈ kept.receive label vars, introduced n → n ∈ vars.reverse ++ scope := by
      intro n hn hi
      rw [Scope.receive, List.mem_append] at hn
      rw [List.mem_append]
      exact hn.imp_right fun hn => hk n (List.mem_of_mem_filter hn) hi
    have hchannel : ∀ n ∈ (kept.receive label vars).withChannel label chan, introduced n →
        n ∈ vars.reverse ++ scope := by
      unfold Scope.withChannel
      split
      · exact hinner
      · exact List.forall_mem_cons.mpr ⟨h.1, hinner⟩
    rw [Process.bindIn, Contained]
    exact ⟨resolved hinner h.1, ih h.2 hchannel⟩
  | par ps ih =>
    rw [Contained] at h
    rw [Process.bindIn, Contained]
    intro q hq
    obtain ⟨p, hp, rfl⟩ := List.mem_map.mp hq
    exact ih p hp (h p hp) hk
  | replicate body ih =>
    rw [Contained] at h
    rw [Process.bindIn, Contained]
    exact ih h hk
  | restrict name body ih =>
    rw [Contained] at h
    rw [Process.bindIn, Contained]
    refine ih h fun n hn hi => ?_
    rw [Scope.restrict, List.mem_cons] at hn
    rw [List.mem_cons]
    exact hn.imp_right fun hn => hk n (List.mem_of_mem_filter hn) hi

/-- What is put at a place has to keep to the scope there. -/
theorem replaceAt (l : Leads path p q) (h : p.Contained introduced scope)
    (hf : ∀ n, fewer n → introduced n) :
    ∃ inner, q.Contained introduced inner ∧
      ∀ new, new.Contained fewer inner → (p.replaceAt path new).Contained fewer scope := by
  induction l generalizing scope with
  | here p => exact ⟨scope, h, fun new hnew => by rwa [Process.replaceAt]⟩
  | component as l bs ih =>
    rw [Contained] at h
    obtain ⟨inner, hq, hput⟩ := ih (h _ (by simp))
    refine ⟨inner, hq, fun new hnew => ?_⟩
    rw [replaceAt_component, Contained]
    intro r hr
    rcases List.mem_append.mp hr with hr | hr
    · exact (h r (by simp [hr])).mono fun n _ hn => ⟨hf n hn, id⟩
    · rcases List.mem_cons.mp hr with rfl | hr
      · exact hput new hnew
      · exact (h r (by simp [hr])).mono fun n _ hn => ⟨hf n hn, id⟩
  | replicate l ih =>
    rw [Contained] at h
    obtain ⟨inner, hq, hput⟩ := ih h
    refine ⟨inner, hq, fun new hnew => ?_⟩
    rw [Process.replaceAt, Contained]
    exact hput new hnew
  | restrict l ih =>
    rw [Contained] at h
    obtain ⟨inner, hq, hput⟩ := ih h
    refine ⟨inner, hq, fun new hnew => ?_⟩
    rw [Process.replaceAt, Contained]
    exact hput new hnew

end Contained

/-- Whether every name is introduced at most once, and used only inside the node that does so. -/
structure Orderly (p : Process ν) : Prop where
  nodup : p.binders.Nodup
  contained : p.Contained (· ∈ p.binders) []

namespace Orderly

variable {p : Process ν} {label : ν → String}

theorem of_nodup (h : p.occurrences.Nodup) : p.Orderly := by
  have hparts := p.occurrences_perm.nodup_iff.mp h
  rw [List.nodup_append] at hparts
  obtain ⟨hbinders, -, hapart⟩ := hparts
  exact ⟨hbinders, .of_unused fun n hn hb => hapart n hb n hn rfl⟩

theorem bind (h : p.Orderly) (label : ν → String) : (p.bind label).Orderly := by
  have hbinders : (p.bind label).binders = p.binders := binders_bindIn ..
  refine ⟨by rw [hbinders]; exact h.nodup, ?_⟩
  rw [hbinders]
  exact h.contained.bindIn fun n hn => absurd hn List.not_mem_nil

theorem wellBound_bind (h : p.Orderly) (label : ν → String) :
    (p.bind label).WellBound label (· ∈ p.binders) [] := by
  refine bindIn_wellBound_of_unbound tracks_nil fun n hn _ hi => ?_
  exact List.not_mem_nil (h.contained.mem_of_unbound hn hi)

theorem simplify [DecidableEq ν] (h : p.Orderly) (label : ν → String) :
    (p.simplify label).Orderly := by
  have hbound := h.bind label
  have hsub : (p.simplify label).binders.Sublist (p.bind label).binders :=
    (binders_prune_sublist _).trans (binders_dropRestrictions_sublist _ _)
  have hkept := scoped_contained.prune
    (scoped_contained.dropRestrictions hbound.contained (dropsUnused _))
  exact ⟨hbound.nodup.sublist hsub, hkept.mono fun n _ hn => ⟨hsub.subset hn, id⟩⟩

/-- A communication takes the variables out of the scope of the continuation, but they are not
introduced any more. -/
theorem reduct {s : Store} {p : Process Name} {path : List Nat} {ps : List (Process Name)}
    {r : Redex Name} (h : p.Orderly) (hr : s.redex? p = some (path, ps, r)) :
    (p.replaceAt path (.par (r.contract ps))).Orderly := by
  have hperm := Store.Apart.binders_reduct hr
  have hnodup := hperm.nodup_iff.mpr h.nodup
  rw [List.nodup_append] at hnodup
  obtain ⟨hleft, -, hvars⟩ := hnodup
  have hfewer : ∀ n, n ∈ (p.replaceAt path (.par (r.contract ps))).binders → n ∈ p.binders :=
    fun n hn => hperm.subset (List.mem_append_left _ hn)
  refine ⟨hleft, ?_⟩
  obtain ⟨hleads, -, other, hreceive, -⟩ := Store.of_redex? hr
  obtain ⟨inner, hpar, hput⟩ := h.contained.replaceAt hleads hfewer
  apply hput
  rw [Contained] at hpar ⊢
  intro q hq
  rcases List.mem_or_eq_of_mem_set hq with hq | rfl
  · rcases List.mem_or_eq_of_mem_set hq with hq | rfl
    · exact (hpar q hq).mono fun n _ hn => ⟨hfewer n hn, id⟩
    · rw [Contained]
      trivial
  · have hreceiver := hpar _ (List.mem_of_getElem? hreceive)
    rw [Contained] at hreceiver
    refine hreceiver.2.mono fun n _ hn => ⟨hfewer n hn, fun hm => ?_⟩
    refine (List.mem_append.mp hm).resolve_left fun hv => ?_
    exact hvars n hn n (List.mem_reverse.mp hv) rfl

end Orderly
end PiCalculus.Process
