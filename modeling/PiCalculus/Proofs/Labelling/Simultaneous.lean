import Mathlib
import PiCalculus.Operation
import PiCalculus.Proofs.Labelling.InPlace
import PiCalculus.Proofs.Process.Places

/-! Values put for variables all at once, however names are shared. The labels that count are those
before the first of them is changed, so it does not matter that a name stands at several places, that
a value is relabelled itself, or that it gets the label of another variable. -/

namespace PiCalculus

open Process

namespace Store

variable {s : Store} {p : Process Name} {vars values : List Name} {n : Name} {i : Nat}

/-- The places of the variables that have the label of a name. -/
def placesOfLabel (s : Store) (vars : List Name) (n : Name) : Set Nat :=
  {i | (vars.map s.label)[i]? = some (s.label n)}

/-- A value is put for the name at the place of this variable, the first one of its label. The name
stands at a send or at a receive and may be written to. -/
structure IsPutFor (s : Store) (p : Process Name) (vars : List Name) (n : Name) (i : Nat) : Prop where
  stands : ∃ place q, p.at? place = some q ∧ n ∈ q.rootPrefix
  mutable : s.isConstant n = false
  first : IsLeast (s.placesOfLabel vars n) i

theorem idxOf?_of_isLeast (h : IsLeast (s.placesOfLabel vars n) i) :
    (vars.map s.label).idxOf? (s.label n) = some i := by
  obtain ⟨hmem, hleast⟩ := h
  obtain ⟨hi, hl⟩ := List.getElem?_eq_some_iff.mp hmem
  refine List.idxOf?_eq_some_iff.mpr ⟨hi, hl, fun j hj hl' => ?_⟩
  exact Nat.not_le.mpr hj (hleast (List.getElem?_eq_some_iff.mpr ⟨hj.trans hi, hl'⟩))

theorem exists_isLeast_placesOfLabel (h : s.label n ∈ vars.map s.label) :
    ∃ i, IsLeast (s.placesOfLabel vars n) i :=
  ⟨_, Nat.isLeast_find (List.mem_iff_getElem?.mp h)⟩

/-- The label that is put for that of a variable is that of the value at its first place. -/
theorem substitution_of_isLeast (even : values.length = vars.length)
    (h : IsLeast (s.placesOfLabel vars n) i) :
    ∃ v, values[i]? = some v ∧
      substitution (vars.map s.label) (values.map s.label) (s.label n) = s.label v := by
  have hi : i < values.length := by
    obtain ⟨hi, -⟩ := List.getElem?_eq_some_iff.mp h.1
    rwa [List.length_map, ← even] at hi
  refine ⟨values[i], List.getElem?_eq_getElem hi, ?_⟩
  rw [substitution_eq (by simpa using even), idxOf?_of_isLeast h]
  simp [hi]

theorem get?_relabel_label (s : Store) (names : List Name) (newLabel : String → String) (n : Name) :
    (s.relabel names newLabel).get? n =
      (s.get? n).map fun e => { e with label := (s.relabel names newLabel).label n } := by
  unfold label
  rw [get?_relabel]
  cases s.get? n with
  | none => rfl
  | some e =>
    simp only [Option.map_some, Option.getD_some, Option.some.injEq]
    split <;> rfl

theorem label_relabel_of_not_isPutFor (h : ∀ i, ¬ s.IsPutFor p vars n i) :
    (s.relabel p.prefixNames (substitution (vars.map s.label) (values.map s.label))).label n =
      s.label n := by
  by_cases hmutable : s.isConstant n = false
  · refine label_relabel_of_fixed fun hn => substitution_of_notMem fun hl => ?_
    obtain ⟨i, hi⟩ := exists_isLeast_placesOfLabel hl
    exact h i ⟨exists_at?_rootPrefix.mpr hn, hmutable, hi⟩
  · unfold isConstant at hmutable
    rw [label, get?_relabel, label]
    cases he : s.get? n with
    | none => rfl
    | some e => simp_all

end Store

namespace Operation

/-- Putting values for variables name by name is the operation, and it comes to putting them all at
once: a name takes the label that the value at the first place of its label has had, all other names
keep theirs, and nothing but labels is written. With a value too many or too few nothing is done. -/
theorem substitute_simultaneous (held : List Name) (s : Store) (p : Process Name)
    (vars values : List Name) (live : ∀ n ∈ p.occurrences, s.isLive n) :
    let w := s.substituteInPlace p vars values
    (substitute (vars.map s.label) (values.map s.label)).run held s p = ofWritten p w ∧
      (values.length = vars.length → w.failure = none ∧
        (∀ n i, s.IsPutFor p vars n i → ∃ v, values[i]? = some v ∧ w.store.label n = s.label v) ∧
        ∀ n, (∀ i, ¬ s.IsPutFor p vars n i) → w.store.label n = s.label n) ∧
      (values.length ≠ vars.length →
        w = ⟨s, some (.unevenSubstitution values.length vars.length)⟩) ∧
      w.store.size = s.size ∧
      ∀ n, w.store.get? n = (s.get? n).map fun e => { e with label := w.store.label n } := by
  intro w
  have hw : w = s.substitute p (vars.map s.label) (values.map s.label) :=
    s.substituteInPlace_eq p vars values
  refine ⟨by rw [hw]; rfl, ?_⟩
  clear_value w
  unfold Store.substitute at hw
  rw [List.length_map, List.length_map] at hw
  by_cases even : values.length = vars.length
  · rw [if_pos even] at hw
    subst hw
    refine ⟨fun _ => ⟨rfl, fun n i h => ?_, fun n h => s.label_relabel_of_not_isPutFor h⟩,
      fun uneven => absurd even uneven, s.size_relabel _ _, s.get?_relabel_label _ _⟩
    obtain ⟨v, hv, hlabel⟩ := Store.substitution_of_isLeast even h.first
    have hn : n ∈ p.prefixNames := exists_at?_rootPrefix.mp h.stands
    have hocc : n ∈ p.occurrences := p.prefixNames_subset_occurrences hn
    refine ⟨v, hv, ?_⟩
    rw [Store.label_relabel (live n hocc) h.mutable, if_pos hn, hlabel]
  · rw [if_neg even] at hw
    subst hw
    refine ⟨fun heven => absurd heven even, fun _ => rfl, rfl, fun n => ?_⟩
    rw [Store.label]
    cases s.get? n <;> rfl

/-- Two names change their labels with each other. A restricted name keeps its one, and so does a
constant name that has the label of a variable. -/
theorem substitute_simultaneous_swap :
    let s : Store := ⟨#[some (.ordinary "x"), some (.ordinary "y"), some (.fixed "x"),
      some (.ordinary "x")]⟩
    let p : Process Name := .receive ⟨0⟩ [⟨1⟩]
      (.par [.send ⟨1⟩ [⟨0⟩, ⟨2⟩], .restrict ⟨3⟩ (.send ⟨0⟩ [])])
    let w := s.substituteInPlace p [⟨0⟩, ⟨1⟩] [⟨1⟩, ⟨0⟩]
    [0, 1, 2, 3].map (fun i => w.store.label ⟨i⟩) = ["y", "x", "x", "x"] ∧
      (∀ n ∈ p.occurrences, s.isLive n) ∧ s.IsPutFor p [⟨0⟩, ⟨1⟩] ⟨0⟩ 0 ∧
      ∃ v, [(⟨1⟩ : Name), ⟨0⟩][0]? = some v ∧ w.store.label ⟨0⟩ = s.label v := by
  intro s p w
  have live : ∀ n ∈ p.occurrences, s.isLive n := by decide +kernel
  have hput : s.IsPutFor p [⟨0⟩, ⟨1⟩] ⟨0⟩ 0 :=
    ⟨⟨[], p, rfl, List.mem_cons_self⟩, by decide +kernel, rfl, fun _ _ => Nat.zero_le _⟩
  have hput' := (substitute_simultaneous [] s p [⟨0⟩, ⟨1⟩] [⟨1⟩, ⟨0⟩] live).2.1 rfl
  exact ⟨by decide +kernel, live, hput, hput'.2.1 ⟨0⟩ 0 hput⟩

end Operation

end PiCalculus
