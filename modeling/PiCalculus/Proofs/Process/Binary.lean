import Mathlib
import PiCalculus.Proofs.Binding.Orderly
import PiCalculus.Proofs.Text.RoundTrip

/-! Processes whose compositions all have two components, as they are read. Binding, communicating
and tidying up leave such processes, and these are read again as they are written. -/

namespace PiCalculus.Process

variable {ν μ : Type}

@[grind =] def Binary : Process ν → Prop
  | .nil | .send .. => True
  | .receive _ _ body | .replicate body | .restrict _ body => body.Binary
  | .par ps => ps.length = 2 ∧ ∀ p ∈ ps, p.Binary
termination_by p => sizeOf p

variable {p q new : Process ν} {path : List Nat}

theorem binary_map (f : ν → μ) (p : Process ν) : (p.map f).Binary ↔ p.Binary := by
  induction p with
  | par ps ih =>
    rw [map, Binary, Binary, List.length_map, List.forall_mem_map]
    exact and_congr_right fun _ => forall₂_congr ih
  | _ => simp_all [map, Binary]

theorem binary_foldl {ps : List (Process ν)} (hp : p.Binary) (hps : ∀ q ∈ ps, q.Binary) :
    (ps.foldl (fun left right => par [left, right]) p).Binary := by
  induction ps generalizing p with
  | nil => exact hp
  | cons q ps ih =>
    rw [List.forall_mem_cons] at hps
    refine ih ?_ hps.2
    rw [Binary]
    exact ⟨rfl, by simp [hp, hps.1]⟩

theorem Composed.binary_regroup (h : p.Composed) : p.regroup.Binary := by
  induction p with
  | nil => simp [regroup, Binary]
  | send chan values => simp [regroup, Binary]
  | receive chan vars body ih =>
    rw [Composed] at h
    rw [regroup, Binary]
    exact ih h
  | par ps ih =>
    rw [Composed] at h
    obtain ⟨p, ps, rfl⟩ := List.exists_cons_of_ne_nil h.1
    have hps : ∀ q ∈ p :: ps, q.regroup.Binary := fun q hq => ih q hq (h.2 q hq)
    rw [List.forall_mem_cons] at hps
    rw [regroup, List.map_cons]
    exact binary_foldl hps.1 (List.forall_mem_map.mpr hps.2)
  | replicate body ih =>
    rw [Composed] at h
    rw [regroup, Binary]
    exact ih h
  | restrict name body ih =>
    rw [Composed] at h
    rw [regroup, Binary]
    exact ih h

theorem Grouped.binary (h : p.Grouped) : p.Binary :=
  h.2 ▸ h.1.binary_regroup

namespace Binary

theorem grouped (h : p.Binary) : p.Grouped := by
  unfold Grouped
  induction p with
  | nil => simp [Composed, regroup]
  | send chan values => simp [Composed, regroup]
  | receive chan vars body ih =>
    rw [Binary] at h
    rw [Composed, regroup]
    exact ⟨(ih h).1, by rw [(ih h).2]⟩
  | par ps ih =>
    rw [Binary] at h
    obtain ⟨a, b, rfl⟩ := List.length_eq_two.mp h.1
    have ha := ih a (by simp) (h.2 a (by simp))
    have hb := ih b (by simp) (h.2 b (by simp))
    rw [Composed, regroup]
    exact ⟨⟨by simp, by simp [ha.1, hb.1]⟩, by simp [ha.2, hb.2]⟩
  | replicate body ih =>
    rw [Binary] at h
    rw [Composed, regroup]
    exact ⟨(ih h).1, by rw [(ih h).2]⟩
  | restrict name body ih =>
    rw [Binary] at h
    rw [Composed, regroup]
    exact ⟨(ih h).1, by rw [(ih h).2]⟩

theorem bindIn (h : p.Binary) (label : ν → String) (scope : Scope ν) :
    (p.bindIn label scope).Binary := by
  rw [← binary_map label, map_bindIn, binary_map]
  exact h

theorem dropRestrictions (h : p.Binary) (drop : ν → Bool) : (p.dropRestrictions drop).Binary := by
  induction p with
  | par ps ih =>
    rw [Binary] at h
    rw [Process.dropRestrictions, Binary, List.length_map, List.forall_mem_map]
    exact ⟨h.1, fun p hp => ih p hp (h.2 p hp)⟩
  | restrict name body ih =>
    rw [Binary] at h
    rw [Process.dropRestrictions]
    split
    · exact ih h
    · rw [Binary]
      exact ih h
  | _ => simp_all [Process.dropRestrictions, Binary]

/-- Of two components there are two left, or there is no composition any more. -/
theorem prune (h : p.Binary) : p.prune.Binary := by
  induction p with
  | nil => rwa [Process.prune]
  | send chan values => rwa [Process.prune]
  | receive chan vars body ih =>
    rw [Binary] at h
    rw [Process.prune, Binary]
    exact ih h
  | par ps ih =>
    rw [Binary] at h
    have hfilter : ∀ q ∈ (ps.map Process.prune).filter (!·.isNil), q.Binary := by
      intro q hq
      obtain ⟨p, hp, rfl⟩ := List.mem_map.mp (List.mem_filter.mp hq).1
      exact ih p hp (h.2 p hp)
    have hlength : ((ps.map Process.prune).filter (!·.isNil)).length ≤ 2 := by
      have hle := List.length_filter_le (!·.isNil) (ps.map Process.prune)
      rwa [List.length_map, h.1] at hle
    rw [Process.prune]
    split
    · rw [Binary]
      trivial
    · next q hq => exact hfilter q (by simp [hq])
    · next hnone hone =>
      generalize (ps.map Process.prune).filter (!·.isNil) = qs at *
      -- With none left or one the result is no composition, and there were two at most.
      rcases qs with _ | ⟨q, _ | ⟨r, rs⟩⟩
      · exact absurd rfl hnone
      · exact absurd rfl (hone q)
      · rw [Binary]
        refine ⟨?_, hfilter⟩
        rw [List.length_cons, List.length_cons] at hlength ⊢
        omega
  | replicate body ih =>
    rw [Binary] at h
    rw [Process.prune]
    split
    · rw [Binary]
      trivial
    · rw [Binary]
      exact ih h
  | restrict name body ih =>
    rw [Binary] at h
    rw [Process.prune]
    split
    · rw [Binary]
      trivial
    · rw [Binary]
      exact ih h

theorem simplify [DecidableEq ν] (h : p.Binary) (label : ν → String) :
    (p.simplify label).Binary :=
  ((h.bindIn label []).dropRestrictions _).prune

theorem replaceAt (l : Leads path p q) (h : p.Binary) :
    q.Binary ∧ ∀ new, new.Binary → (p.replaceAt path new).Binary := by
  induction l with
  | here p => exact ⟨h, fun new hnew => by rwa [Process.replaceAt]⟩
  | @component as path p q l bs ih =>
    rw [Binary] at h
    obtain ⟨hq, hput⟩ := ih (h.2 p (by simp))
    refine ⟨hq, fun new hnew => ?_⟩
    rw [replaceAt_component, Binary]
    constructor
    · simpa using h.1
    · intro r hr
      rcases List.mem_append.mp hr with hr | hr
      · exact h.2 r (by simp [hr])
      · rcases List.mem_cons.mp hr with rfl | hr
        · exact hput new hnew
        · exact h.2 r (by simp [hr])
  | replicate l ih =>
    rw [Binary] at h
    refine ⟨(ih h).1, fun new hnew => ?_⟩
    rw [Process.replaceAt, Binary]
    exact (ih h).2 new hnew
  | restrict l ih =>
    rw [Binary] at h
    refine ⟨(ih h).1, fun new hnew => ?_⟩
    rw [Process.replaceAt, Binary]
    exact (ih h).2 new hnew

theorem reduct {s : Store} {p : Process Name} {ps : List (Process Name)} {r : Redex Name}
    (h : p.Binary) (hr : s.redex? p = some (path, ps, r)) :
    (p.replaceAt path (.par (r.contract ps))).Binary := by
  obtain ⟨hleads, -, other, hreceive, -⟩ := Store.of_redex? hr
  obtain ⟨hpar, hput⟩ := h.replaceAt hleads
  rw [Binary] at hpar
  have hreceiver := hpar.2 _ (List.mem_of_getElem? hreceive)
  rw [Binary] at hreceiver
  apply hput
  rw [Binary]
  refine ⟨by simpa [Redex.contract] using hpar.1, fun q hq => ?_⟩
  rcases List.mem_or_eq_of_mem_set hq with hq | rfl
  · rcases List.mem_or_eq_of_mem_set hq with hq | rfl
    · exact hpar.2 q hq
    · rw [Binary]
      trivial
  · exact hreceiver

theorem of_at? (h : p.Binary) (hat : p.at? path = some q) : q.Binary := by
  induction path generalizing p with
  | nil =>
    obtain rfl : p = q := by simpa [at?] using hat
    exact h
  | cons i path ih =>
    rw [at?] at hat
    obtain ⟨child, hchild, hrest⟩ := Option.bind_eq_some_iff.mp hat
    have hmem : child ∈ p.children := List.mem_of_getElem? hchild
    refine ih ?_ hrest
    cases p with
    | nil => cases hmem
    | send chan values => cases hmem
    | par ps =>
      rw [Binary] at h
      exact h.2 child hmem
    | receive chan vars body =>
      obtain rfl := List.mem_singleton.mp hmem
      rwa [Binary] at h
    | replicate body =>
      obtain rfl := List.mem_singleton.mp hmem
      rwa [Binary] at h
    | restrict name body =>
      obtain rfl := List.mem_singleton.mp hmem
      rwa [Binary] at h

end Binary
end PiCalculus.Process
