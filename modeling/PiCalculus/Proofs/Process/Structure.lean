import Mathlib
import PiCalculus.Labelling

/-! Induction over processes, and the names at their different places: binders, the prefixes of
receives, and the occurrences that no binder of their label surrounds. The channel of a receive
stands outside the scope of its variables. -/

namespace PiCalculus.Process

variable {ν μ : Type}

@[elab_as_elim, induction_eliminator]
theorem induct {motive : Process ν → Prop} (nil : motive nil)
    (send : ∀ chan values, motive (send chan values))
    (receive : ∀ chan vars body, motive body → motive (receive chan vars body))
    (par : ∀ ps, (∀ p ∈ ps, motive p) → motive (par ps))
    (replicate : ∀ body, motive body → motive (replicate body))
    (restrict : ∀ name body, motive body → motive (restrict name body)) :
    ∀ p, motive p
  | .nil => nil
  | .send chan values => send chan values
  | .receive chan vars body =>
    receive chan vars body (induct nil send receive par replicate restrict body)
  | .par ps => par ps fun p _ => induct nil send receive par replicate restrict p
  | .replicate body => replicate body (induct nil send receive par replicate restrict body)
  | .restrict name body =>
    restrict name body (induct nil send receive par replicate restrict body)

/-- The names that restrictions and receives introduce. -/
@[grind =] def binders : Process ν → List ν
  | .nil | .send .. => []
  | .receive _ vars body => vars ++ body.binders
  | .par ps => ps.flatMap binders
  | .replicate body => body.binders
  | .restrict name body => name :: body.binders
termination_by p => sizeOf p

/-- The occurrences that introduce no name. -/
@[grind =] def usedNames : Process ν → List ν
  | .nil => []
  | .send chan values => chan :: values
  | .receive chan _ body => chan :: body.usedNames
  | .par ps => ps.flatMap usedNames
  | .replicate body | .restrict _ body => body.usedNames
termination_by p => sizeOf p

/-- The prefixes of the receives: channel and variables. -/
@[grind =] def inputs : Process ν → List (ν × List ν)
  | .nil | .send .. => []
  | .receive chan vars body => (chan, vars) :: body.inputs
  | .par ps => ps.flatMap inputs
  | .replicate body | .restrict _ body => body.inputs
termination_by p => sizeOf p

/-- The occurrences that are not in the scope of a binder with their label. -/
@[grind =] def free (label : ν → String) : Process ν → List ν
  | .nil => []
  | .send chan values => chan :: values
  | .receive chan vars body =>
    chan :: (body.free label).filter fun n => label n ∉ vars.map label
  | .par ps => ps.flatMap (free label)
  | .replicate body => body.free label
  | .restrict name body => (body.free label).filter fun n => label n ≠ label name
termination_by p => sizeOf p

def freeLabels (p : Process String) : List String := p.free id

/-- The occurrences that are not in the scope of a binder with their label, where the variables of a
receive have its channel in their scope too. -/
@[grind =] def unbound (label : ν → String) : Process ν → List ν
  | .nil => []
  | .send chan values => chan :: values
  | .receive chan vars body =>
    (chan :: body.unbound label).filter fun n => label n ∉ vars.map label
  | .par ps => ps.flatMap (unbound label)
  | .replicate body => body.unbound label
  | .restrict name body => (body.unbound label).filter fun n => label n ≠ label name
termination_by p => sizeOf p

def unboundLabels (p : Process String) : List String := p.unbound id

variable (f : ν → μ) (label : ν → String)

theorem map_congr {f g : ν → μ} {p : Process ν} (h : ∀ n ∈ p.occurrences, f n = g n) :
    p.map f = p.map g := by
  induction p with
  | par ps ih =>
    simp only [map, par.injEq]
    refine List.map_congr_left fun p hp => ih p hp fun n hn => h n ?_
    rw [occurrences]
    exact List.mem_flatMap.mpr ⟨p, hp, hn⟩
  | _ => simp_all [map, occurrences]

theorem occurrences_perm (p : Process ν) : p.occurrences.Perm (p.binders ++ p.usedNames) := by
  induction p with
  | nil => simp [occurrences, binders, usedNames]
  | send chan values => simp [occurrences, binders, usedNames]
  | receive chan vars body ih =>
    rw [occurrences, binders, usedNames, List.append_assoc]
    exact (List.Perm.cons chan (ih.append_left vars)).trans (by
      rw [← List.append_assoc, ← List.append_assoc]
      exact List.perm_middle.symm)
  | par ps ih =>
    rw [occurrences, binders, usedNames]
    induction ps with
    | nil => simp
    | cons p ps ihs =>
      obtain ⟨hp, hps⟩ := List.forall_mem_cons.mp ih
      simp only [List.flatMap_cons]
      refine (hp.append (ihs hps)).trans ?_
      rw [List.append_assoc, List.append_assoc]
      refine List.Perm.append_left _ ?_
      rw [← List.append_assoc, ← List.append_assoc]
      exact List.perm_append_comm.append_right _
  | replicate body ih => simpa [occurrences, binders, usedNames] using ih
  | restrict name body ih => simpa [occurrences, binders, usedNames] using ih

theorem binders_subset_occurrences (p : Process ν) : p.binders ⊆ p.occurrences := fun _ hn =>
  p.occurrences_perm.mem_iff.mpr (List.mem_append_left _ hn)

theorem usedNames_subset_occurrences (p : Process ν) : p.usedNames ⊆ p.occurrences := fun _ hn =>
  p.occurrences_perm.mem_iff.mpr (List.mem_append_right _ hn)

theorem usedNames_subset_prefixNames (p : Process ν) : p.usedNames ⊆ p.prefixNames := by
  induction p with
  | receive chan vars body ih =>
    rw [usedNames, prefixNames]
    exact List.cons_subset_cons _ (List.subset_append_of_subset_right _ ih)
  | par ps ih =>
    rw [usedNames, prefixNames]
    intro n hn
    obtain ⟨p, hp, hnp⟩ := List.mem_flatMap.mp hn
    exact List.mem_flatMap.mpr ⟨p, hp, ih p hp hnp⟩
  | _ => simp_all [usedNames, prefixNames]

theorem free_subset_usedNames (p : Process ν) : p.free label ⊆ p.usedNames := by
  induction p with
  | nil => simp [free]
  | send chan values => simp [free, usedNames]
  | receive chan vars body ih =>
    rw [free, usedNames]
    intro n hn
    rcases List.mem_cons.mp hn with rfl | hn
    · exact List.mem_cons_self
    · exact List.mem_cons_of_mem _ (ih (List.mem_filter.mp hn).1)
  | par ps ih =>
    rw [free, usedNames]
    intro n hn
    obtain ⟨p, hp, hnp⟩ := List.mem_flatMap.mp hn
    exact List.mem_flatMap.mpr ⟨p, hp, ih p hp hnp⟩
  | replicate body ih => simpa [free, usedNames] using ih
  | restrict name body ih =>
    rw [free, usedNames]
    exact fun n hn => ih (List.mem_filter.mp hn).1

theorem unbound_subset_free (p : Process ν) : p.unbound label ⊆ p.free label := by
  induction p with
  | receive chan vars body ih =>
    rw [unbound, free]
    intro n hn
    obtain ⟨hmem, hl⟩ := List.mem_filter.mp hn
    rcases List.mem_cons.mp hmem with rfl | hmem
    · exact List.mem_cons_self
    · exact List.mem_cons_of_mem _ (List.mem_filter.mpr ⟨ih hmem, hl⟩)
  | par ps ih =>
    rw [unbound, free]
    intro n hn
    obtain ⟨p, hp, hnp⟩ := List.mem_flatMap.mp hn
    exact List.mem_flatMap.mpr ⟨p, hp, ih p hp hnp⟩
  | restrict name body ih =>
    rw [unbound, free]
    exact List.filter_subset _ ih
  | _ => simp_all [unbound, free]

theorem unbound_subset_usedNames (p : Process ν) : p.unbound label ⊆ p.usedNames :=
  fun _ hn => p.free_subset_usedNames label (p.unbound_subset_free label hn)

theorem inputs_map (p : Process ν) :
    (p.map f).inputs = p.inputs.map fun i => (f i.1, i.2.map f) := by
  induction p with
  | par ps ih =>
    rw [map, inputs, inputs, List.flatMap_map, List.map_flatMap]
    exact List.flatMap_congr ih
  | _ => simp_all [map, inputs]

theorem free_map (g : μ → String) (p : Process ν) :
    (p.map f).free g = (p.free (g ∘ f)).map f := by
  induction p with
  | par ps ih =>
    rw [map, free, free, List.flatMap_map, List.map_flatMap]
    exact List.flatMap_congr ih
  | receive chan vars body ih =>
    simp [map, free, ih, List.filter_map, Function.comp_def]
  | restrict name body ih =>
    simp [map, free, ih, List.filter_map, Function.comp_def]
  | _ => simp_all [map, free]

theorem freeLabels_map (p : Process ν) : (p.map label).freeLabels = (p.free label).map label :=
  p.free_map label id

theorem unbound_map (g : μ → String) (p : Process ν) :
    (p.map f).unbound g = (p.unbound (g ∘ f)).map f := by
  induction p with
  | par ps ih =>
    rw [map, unbound, unbound, List.flatMap_map, List.map_flatMap]
    exact List.flatMap_congr ih
  | receive chan vars body ih =>
    rw [map, unbound, unbound, ih, ← List.map_cons, List.filter_map, List.map_map]
    rfl
  | restrict name body ih =>
    rw [map, unbound, unbound, ih, List.filter_map]
    rfl
  | _ => simp_all [map, unbound]

theorem unboundLabels_map (p : Process ν) :
    (p.map label).unboundLabels = (p.unbound label).map label :=
  p.unbound_map label id

theorem unbound_congr {f g : ν → String} {p : Process ν} (h : ∀ n ∈ p.occurrences, f n = g n) :
    p.unbound f = p.unbound g := by
  induction p with
  | par ps ih =>
    rw [unbound, unbound]
    refine List.flatMap_congr fun p hp => ih p hp fun n hn => h n ?_
    rw [occurrences]
    exact List.mem_flatMap.mpr ⟨p, hp, hn⟩
  | receive chan vars body ih =>
    simp only [occurrences, List.forall_mem_cons, List.mem_append, or_imp, forall_and] at h
    obtain ⟨hchan, hvars, hbody⟩ := h
    rw [unbound, unbound, ih hbody, List.map_congr_left hvars]
    refine List.filter_congr fun n hn => ?_
    rcases List.mem_cons.mp hn with rfl | hn
    · rw [hchan]
    · rw [hbody n (usedNames_subset_occurrences _ (unbound_subset_usedNames g _ hn))]
  | restrict name body ih =>
    rw [occurrences, List.forall_mem_cons] at h
    rw [unbound, unbound, ih h.2, h.1]
    refine List.filter_congr fun n hn => ?_
    rw [h.2 n (usedNames_subset_occurrences _ (unbound_subset_usedNames g _ hn))]
  | _ => simp_all [unbound, occurrences]

end PiCalculus.Process
