import Mathlib
import PiCalculus.Proofs.Binding.Resolution
import PiCalculus.Reduction.Congruence

/-! Structural congruence without commutation and without moving scopes, and that tidying up stays
within it. -/

namespace PiCalculus.Process

/-- The congruence of processes in which `0` and restrictions of names that are not free below them
come and go, up to renaming of bound names. -/
inductive Congruent : Process String → Process String → Prop
  | alpha {p q : Process String} (h : AlphaEquivalent p q) : Congruent p q
  | symm {p q : Process String} (h : Congruent p q) : Congruent q p
  | trans {p q r : Process String} (h : Congruent p q) (h' : Congruent q r) : Congruent p r
  | parNil (as bs : List (Process String)) :
      Congruent (.par (as ++ .nil :: bs)) (.par (as ++ bs))
  | parOne (p : Process String) : Congruent (.par [p]) p
  | parNone : Congruent (.par []) .nil
  | replicateNil : Congruent (.replicate .nil) .nil
  | unused {name : String} {p : Process String} (h : name ∉ p.freeLabels) :
      Congruent (.restrict name p) p
  | receive {chan : String} {vars : List String} {p q : Process String} (h : Congruent p q) :
      Congruent (.receive chan vars p) (.receive chan vars q)
  | component (as bs : List (Process String)) {p q : Process String} (h : Congruent p q) :
      Congruent (.par (as ++ p :: bs)) (.par (as ++ q :: bs))
  | replicate {p q : Process String} (h : Congruent p q) :
      Congruent (.replicate p) (.replicate q)
  | restrict {name : String} {p q : Process String} (h : Congruent p q) :
      Congruent (.restrict name p) (.restrict name q)

namespace Congruent

theorem refl (p : Process String) : Congruent p p := .alpha (.refl p)

/-- Components are exchanged one after the other, behind those that have been already. -/
theorem par_map {ν : Type} {f g : ν → Process String} {ps : List ν}
    (h : ∀ p ∈ ps, Congruent (f p) (g p)) (as : List (Process String)) :
    Congruent (.par (as ++ ps.map f)) (.par (as ++ ps.map g)) := by
  induction ps generalizing as with
  | nil => exact .refl _
  | cons p ps ih =>
    obtain ⟨hp, hps⟩ := List.forall_mem_cons.mp h
    have htail := ih hps (as ++ [g p])
    rw [List.append_assoc, List.append_assoc] at htail
    exact (component as (ps.map f) hp).trans htail

theorem par_filter (ps as : List (Process String)) :
    Congruent (.par (as ++ ps.filter (!·.isNil))) (.par (as ++ ps)) := by
  induction ps generalizing as with
  | nil => exact .refl _
  | cons p ps ih =>
    by_cases hp : p.isNil
    · obtain rfl : p = .nil := by cases p <;> first | rfl | cases hp
      exact (ih as).trans (parNil as ps).symm
    · rw [List.filter_cons_of_pos (by simpa using hp)]
      simpa using ih (as ++ [p])

end Congruent

theorem prune_congruent (p : Process String) : Congruent p.prune p := by
  induction p with
  | nil =>
    rw [prune]
    exact .refl _
  | send chan values =>
    rw [prune]
    exact .refl _
  | receive chan vars body ih =>
    rw [prune]
    exact .receive ih
  | par ps ih =>
    -- First each component is tidied up, then those that have become inactive are left out.
    have hmap : Congruent (.par (ps.map prune)) (.par ps) := by
      simpa using Congruent.par_map (g := id) ih []
    have hfilter := (Congruent.par_filter (ps.map prune) []).trans hmap
    rw [List.nil_append] at hfilter
    rw [prune]
    split
    · next hnone => exact Congruent.parNone.symm.trans (hnone ▸ hfilter)
    · next q hone => exact (Congruent.parOne q).symm.trans (hone ▸ hfilter)
    · exact hfilter
  | replicate body ih =>
    rw [prune]
    split
    · next hnil => exact Congruent.replicateNil.symm.trans (.replicate (hnil ▸ ih))
    · exact .replicate ih
  | restrict name body ih =>
    rw [prune]
    split
    · next hnil =>
      refine .trans (.symm (.unused ?_)) (.restrict (hnil ▸ ih))
      simp [freeLabels, free]
    · exact .restrict ih

variable {ν μ : Type}

theorem prune_map (f : ν → μ) (p : Process ν) : (p.map f).prune = p.prune.map f := by
  have hnil : ∀ q : Process ν, (q.map f).isNil = q.isNil := fun q => by
    cases q <;> simp [map, isNil]
  induction p with
  | nil => simp [map, prune]
  | send chan values => simp [map, prune]
  | receive chan vars body ih => simp [map, prune, ih]
  | par ps ih =>
    have hmap : (ps.map (map f)).map prune = (ps.map prune).map (map f) := by
      rw [List.map_map, List.map_map]
      exact List.map_congr_left ih
    rw [map, prune, prune, hmap, List.filter_map]
    have hfilter : (fun q : Process μ => !q.isNil) ∘ map f = fun q : Process ν => !q.isNil := by
      funext q
      simp [hnil]
    rw [hfilter]
    generalize (ps.map prune).filter (fun q => !q.isNil) = qs
    rcases qs with _ | ⟨q, _ | ⟨r, rs⟩⟩
    · simp only [List.map_nil, map]
    · rfl
    · simp only [List.map_cons, map]
  | replicate body ih =>
    rw [map, prune, prune, ih]
    cases body.prune <;> simp [map]
  | restrict name body ih =>
    rw [map, prune, prune, ih]
    cases body.prune <;> simp [map]

end PiCalculus.Process
