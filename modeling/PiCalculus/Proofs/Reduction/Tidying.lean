import Mathlib
import PiCalculus.Proofs.Binding.Confined
import PiCalculus.Proofs.Process.BreadthFirst
import PiCalculus.Proofs.Process.Congruence

/-! What tidying up keeps of a process without free names whose binders have different labels: it
stays such a process, and it stays the same up to structural congruence. -/

namespace PiCalculus.Process

variable {ν : Type} {drop : ν → Bool} {label : ν → String}

theorem flatMap_sublist {α β : Type} {f g : α → List β} {as : List α}
    (h : ∀ a ∈ as, (f a).Sublist (g a)) : (as.flatMap f).Sublist (as.flatMap g) := by
  induction as with
  | nil => exact .slnil
  | cons a as ih =>
    obtain ⟨ha, has⟩ := List.forall_mem_cons.mp h
    rw [List.flatMap_cons, List.flatMap_cons]
    exact ha.append (ih has)

theorem binders_dropRestrictions_sublist (drop : ν → Bool) (p : Process ν) :
    (p.dropRestrictions drop).binders.Sublist p.binders := by
  induction p with
  | nil => simp [dropRestrictions]
  | send chan values => simp [dropRestrictions]
  | receive chan vars body ih =>
    rw [dropRestrictions, binders, binders]
    exact ih.append_left vars
  | par ps ih =>
    rw [dropRestrictions, binders, binders, List.flatMap_map]
    exact flatMap_sublist ih
  | replicate body ih =>
    rw [dropRestrictions, binders, binders]
    exact ih
  | restrict name body ih =>
    rw [dropRestrictions, binders]
    split
    · exact ih.cons name
    · rw [binders]
      exact ih.cons_cons name

/-- Whether only restrictions are dropped that hold no occurrence by its label. -/
@[grind =] def DropsVacuous (label : ν → String) (drop : ν → Bool) : Process ν → Prop
  | .nil | .send .. => True
  | .receive _ _ body | .replicate body => body.DropsVacuous label drop
  | .par ps => ∀ p ∈ ps, p.DropsVacuous label drop
  | .restrict name body =>
    (drop name → ∀ n ∈ body.free label, label n ≠ label name) ∧ body.DropsVacuous label drop
termination_by p => sizeOf p

/-- Where a label belongs to one name only, a restriction of an unused name holds nothing. -/
theorem DropsUnused.dropsVacuous {p : Process ν} (unused : p.DropsUnused drop)
    (inj : ∀ n ∈ p.occurrences, ∀ m ∈ p.occurrences, label n = label m → n = m) :
    p.DropsVacuous label drop := by
  induction p with
  | nil => simp [DropsVacuous]
  | send chan values => simp [DropsVacuous]
  | receive chan vars body ih =>
    rw [DropsUnused] at unused
    rw [occurrences] at inj
    rw [DropsVacuous]
    exact ih unused fun n hn m hm => inj n (by simp [hn]) m (by simp [hm])
  | par ps ih =>
    rw [DropsUnused] at unused
    rw [occurrences] at inj
    rw [DropsVacuous]
    exact fun p hp => ih p hp (unused p hp) fun n hn m hm =>
      inj n (List.mem_flatMap.mpr ⟨p, hp, hn⟩) m (List.mem_flatMap.mpr ⟨p, hp, hm⟩)
  | replicate body ih =>
    rw [DropsUnused] at unused
    rw [occurrences] at inj
    rw [DropsVacuous]
    exact ih unused inj
  | restrict name body ih =>
    rw [DropsUnused] at unused
    rw [occurrences] at inj
    rw [DropsVacuous]
    have hbody := ih unused.2 fun n hn m hm => inj n (by simp [hn]) m (by simp [hm])
    refine ⟨fun hdrop n hn hl => ?_, hbody⟩
    have hused := body.free_subset_usedNames label hn
    have hocc := body.usedNames_subset_occurrences hused
    obtain rfl := inj n (by simp [hocc]) name (by simp) hl
    exact unused.1 hdrop (body.usedNames_subset_prefixNames hused)

theorem DropsVacuous.congruent {p : Process ν} (h : p.DropsVacuous label drop) :
    Congruent ((p.dropRestrictions drop).map label) (p.map label) := by
  induction p with
  | nil =>
    rw [dropRestrictions]
    exact .refl _
  | send chan values =>
    rw [dropRestrictions]
    exact .refl _
  | receive chan vars body ih =>
    rw [DropsVacuous] at h
    rw [dropRestrictions, map, map]
    exact .receive (ih h)
  | par ps ih =>
    rw [DropsVacuous] at h
    rw [dropRestrictions, map, map, List.map_map]
    have hps := Congruent.par_map (f := map label ∘ Process.dropRestrictions drop) (g := map label)
      (fun p hp => ih p hp (h p hp)) []
    simpa using hps
  | replicate body ih =>
    rw [DropsVacuous] at h
    rw [dropRestrictions, map, map]
    exact .replicate (ih h)
  | restrict name body ih =>
    rw [DropsVacuous] at h
    have hbody := ih h.2
    rw [dropRestrictions, map]
    split
    · next hdrop =>
      refine hbody.trans (.symm (.unused fun hfree => ?_))
      rw [freeLabels_map] at hfree
      obtain ⟨n, hn, hl⟩ := List.mem_map.mp hfree
      exact h.1 hdrop n hn hl
    · rw [map]
      exact .restrict hbody

theorem binders_prune_sublist (p : Process ν) : p.prune.binders.Sublist p.binders := by
  induction p with
  | nil => simp [prune]
  | send chan values => simp [prune]
  | receive chan vars body ih =>
    rw [prune, binders, binders]
    exact ih.append_left vars
  | par ps ih =>
    have hmap : ((ps.map prune).flatMap binders).Sublist (ps.flatMap binders) := by
      rw [List.flatMap_map]
      exact flatMap_sublist ih
    have hfilter := (List.filter_sublist (p := (!·.isNil)) (l := ps.map prune)).flatMap binders
    rw [prune, binders]
    split
    · simp [binders]
    · next q hq =>
      rw [hq] at hfilter
      simpa using hfilter.trans hmap
    · rw [binders]
      exact hfilter.trans hmap
  | replicate body ih =>
    rw [prune, binders]
    split
    · simp [binders]
    · rw [binders]
      exact ih
  | restrict name body ih =>
    rw [prune, binders]
    split
    · simp [binders]
    · rw [binders]
      exact ih.cons_cons name

variable [DecidableEq ν] {p : Process ν}

theorem binders_simplify_sublist (label : ν → String) (p : Process ν) :
    (p.simplify label).binders.Sublist p.binders := by
  rw [← binders_bindIn label [] p]
  exact (binders_prune_sublist _).trans (binders_dropRestrictions_sublist _ _)

theorem simplify_confined (closed : p.free label = []) (hd : (p.binders.map label).Nodup) :
    (p.simplify label).Confined [] :=
  scoped_confined.prune (scoped_confined.dropRestrictions (bind_confined closed hd) (dropsUnused _))

theorem simplify_congruent (closed : p.free label = []) (hd : (p.binders.map label).Nodup) :
    Congruent ((p.simplify label).map label) (p.map label) := by
  have hbind := bind_confined closed hd
  have mem : ∀ {n}, n ∈ (p.bind label).occurrences → n ∈ p.binders := fun hn => by
    rw [← binders_bindIn label [] p]
    exact (hbind.mem_binders hn).resolve_left List.not_mem_nil
  have hvacuous := (dropsUnused (p.bind label)).dropsVacuous fun n hn m hm hl =>
    List.inj_on_of_nodup_map hd (mem hn) (mem hm) hl
  have hdrop := hvacuous.congruent
  rw [map_bind] at hdrop
  rw [simplify, ← prune_map]
  exact (prune_congruent _).trans hdrop

end PiCalculus.Process
