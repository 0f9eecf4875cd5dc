import Mathlib
import PiCalculus.Proofs.Reduction.NormalForm

/-! What restrictions hold. A name is introduced by being received or by being restricted. In a bound
process a restricted name is used exactly if its label is unbound below the restriction, so whether a
restriction holds anything can be told from the labels. -/

namespace PiCalculus.Process

variable {ν : Type} {label : ν → String} {introduced : ν → Prop} {scope inner : Scope ν}
  {drop : ν → Bool} {p body : Process ν} {n name : ν} {place : List Nat}

open scoped List in
theorem binders_perm (p : Process ν) : p.binders ~ p.inputs.flatMap (·.2) ++ p.restrictedNames := by
  induction p with
  | nil => simp [binders, inputs, restrictedNames]
  | send chan values => simp [binders, inputs, restrictedNames]
  | receive chan vars body ih =>
    rw [binders, inputs, restrictedNames, List.flatMap_cons, List.append_assoc]
    exact ih.append_left vars
  | par ps ih =>
    rw [binders, inputs, restrictedNames, List.flatMap_assoc]
    exact (List.Perm.flatMap_left ps ih).trans (List.flatMap_append_perm ps _ _).symm
  | replicate body ih => rwa [binders, inputs, restrictedNames]
  | restrict name body ih =>
    rw [binders, inputs, restrictedNames, ← List.append_assoc]
    exact (ih.cons name).trans (List.perm_append_singleton name _).symm

open scoped List in
/-- A name in a prefix is received there, or it is used. -/
theorem prefixNames_perm (p : Process ν) :
    p.prefixNames ~ p.inputs.flatMap (·.2) ++ p.usedNames := by
  induction p with
  | nil => simp [prefixNames, inputs, usedNames]
  | send chan values => simp [prefixNames, inputs, usedNames]
  | receive chan vars body ih =>
    rw [prefixNames, inputs, usedNames, List.flatMap_cons]
    calc chan :: (vars ++ body.prefixNames)
      _ ~ chan :: ((vars ++ body.inputs.flatMap (·.2)) ++ body.usedNames) := by
        rw [List.append_assoc]
        exact (ih.append_left vars).cons chan
      _ ~ (vars ++ body.inputs.flatMap (·.2)) ++ chan :: body.usedNames := List.perm_middle.symm
  | par ps ih =>
    rw [prefixNames, inputs, usedNames, List.flatMap_assoc]
    exact (List.Perm.flatMap_left ps ih).trans (List.flatMap_append_perm ps _ _).symm
  | replicate body ih => rwa [prefixNames, inputs, usedNames]
  | restrict name body ih => rwa [prefixNames, inputs, usedNames]

open scoped List in
theorem occurrences_perm_prefixNames (p : Process ν) :
    p.occurrences ~ p.prefixNames ++ p.restrictedNames := by
  calc p.occurrences
    _ ~ (p.inputs.flatMap (·.2) ++ p.restrictedNames) ++ p.usedNames :=
      p.occurrences_perm.trans (p.binders_perm.append_right _)
    _ ~ (p.inputs.flatMap (·.2) ++ p.usedNames) ++ p.restrictedNames := by
      rw [List.append_assoc, List.append_assoc]
      exact List.perm_append_comm.append_left _
    _ ~ p.prefixNames ++ p.restrictedNames := p.prefixNames_perm.symm.append_right _

theorem mem_restrictedNames_of_at? (hat : p.at? place = some (.restrict name body)) :
    name ∈ p.restrictedNames :=
  (exists_at?_iff (fun _ => mem_restrictedNames_iff) p).mp
    ⟨place, _, hat, by simp [rootMentions]⟩

/-- A name that is introduced once and restricted somewhere is in a prefix only by being used. -/
theorem mem_usedNames_of_mem_prefixNames (nodup : p.binders.Nodup)
    (restricted : name ∈ p.restrictedNames) (hn : name ∈ p.prefixNames) : name ∈ p.usedNames := by
  have hapart := (List.nodup_append.mp (p.binders_perm.nodup_iff.mp nodup)).2.2
  rcases List.mem_append.mp (p.prefixNames_perm.subset hn) with hreceived | hused
  · exact absurd rfl (hapart name hreceived name restricted)
  · exact hused

namespace WellBound

theorem everywhere (h : p.WellBound label introduced scope) :
    p.Everywhere fun q => ∃ around, q.WellBound label introduced around :=
  scoped_wellBound.everywhere h

/-- What a restriction holds by its label is the name that it introduces. -/
theorem mem_usedNames_of_label (h : (restrict name body).WellBound label introduced scope)
    (hl : label name ∈ (body.map label).unboundLabels) : name ∈ body.usedNames := by
  rw [WellBound] at h
  rw [unboundLabels_map] at hl
  obtain ⟨n, hn, hlabel⟩ := List.mem_map.mp hl
  have hres : IsResolved label introduced ([name] ++ scope) n := h.isResolved_of_unbound hn
  have hheld := hres.mem_of_label_mem (by simpa using hlabel)
  obtain rfl : n = name := List.mem_singleton.mp hheld
  exact body.unbound_subset_usedNames label hn

end WellBound

theorem DropsUnused.everywhere (h : p.DropsUnused drop) : p.Everywhere fun q =>
    ∀ name body, q = .restrict name body → drop name → name ∉ body.prefixNames := by
  induction p with
  | nil => exact everywhere_nil.mpr nofun
  | send chan values => exact everywhere_send.mpr nofun
  | receive chan vars body ih =>
    rw [DropsUnused] at h
    exact everywhere_receive.mpr ⟨nofun, ih h⟩
  | par ps ih =>
    rw [DropsUnused] at h
    exact everywhere_par.mpr ⟨nofun, fun q hq => ih q hq (h q hq)⟩
  | replicate body ih =>
    rw [DropsUnused] at h
    exact everywhere_replicate.mpr ⟨nofun, ih h⟩
  | restrict name body ih =>
    rw [DropsUnused] at h
    refine everywhere_restrict.mpr ⟨?_, ih h.2⟩
    rintro _ _ ⟨⟩
    exact h.1

namespace Orderly

/-- In a bound process a restriction holds something by its label if its name is used. -/
theorem mem_usedNames_iff (h : p.Orderly) (bound : p.bind label = p)
    (hat : p.at? place = some (.restrict name body)) :
    name ∈ p.usedNames ↔ label name ∈ (body.map label).unboundLabels := by
  have hwell := h.wellBound_bind label
  rw [bound] at hwell
  obtain ⟨around, hrestrict⟩ := hwell.everywhere place _ hat
  constructor
  · intro hused
    have hbody := h.mem_usedNames_of_at? hat hused
    have hnodup : (Process.restrict name body).binders.Nodup := by
      obtain ⟨outside, hself, -⟩ := gathers_binders.replaceAt_perm hat
      exact (hself.nodup_iff.mp h.nodup).of_append_right
    rw [binders, List.nodup_cons] at hnodup
    rw [WellBound] at hrestrict
    rw [unboundLabels_map]
    exact List.mem_map_of_mem (hrestrict.mem_unbound_of_used hbody hnodup.1)
  · intro hl
    have hused : (Process.restrict name body).usedNames ⊆ p.usedNames :=
      gathers_usedNames.subset_of_at? hat
    rw [usedNames] at hused
    exact hused (hrestrict.mem_usedNames_of_label hl)

theorem isUnused_iff [DecidableEq ν] (h : p.Orderly) (bound : p.bind label = p)
    (hat : p.at? place = some (.restrict name body)) :
    isUnused p.mentions name ↔ label name ∉ (body.map label).unboundLabels := by
  rw [← h.mem_usedNames_iff bound hat]
  constructor
  · intro hunused hused
    have hbody := h.mem_usedNames_of_at? hat hused
    exact (dropsUnused p).everywhere place _ hat name body rfl hunused
      (body.usedNames_subset_prefixNames hbody)
  · exact isUnused_of_notMem_usedNames h.nodup hat

end Orderly
end PiCalculus.Process
