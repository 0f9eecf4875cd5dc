import Mathlib
import PiCalculus.Process.Free
import PiCalculus.Proofs.Process.Places

/-! Lists of free names and variables. Each label stands in them once, and they ascend. Where the
sorts of the names fit the binders, so that a restriction holds no variable and the variables of a
receive hold nothing else, they are the names and the variables that are free. -/

namespace PiCalculus.Process

section Listing

variable {ν : Type} {label : ν → String} {names : List ν} {n : ν} {l : String}

theorem mem_insertByLabel :
    l ∈ (insertByLabel label n names).map label ↔ l = label n ∨ l ∈ names.map label := by
  induction names with
  | nil => simp [insertByLabel]
  | cons m names ih =>
    rw [insertByLabel]
    split
    · simp
    · split
      · next heq => simp [heq]
      · simp only [List.map_cons, List.mem_cons] at ih ⊢
        rw [ih, or_left_comm]

theorem pairwise_insertByLabel (h : (names.map label).Pairwise (· < ·)) :
    ((insertByLabel label n names).map label).Pairwise (· < ·) := by
  induction names with
  | nil => simp [insertByLabel]
  | cons m names ih =>
    rw [List.map_cons, List.pairwise_cons] at h
    obtain ⟨hm, hnames⟩ := h
    rw [insertByLabel]
    split
    · next hlt =>
      rw [List.map_cons, List.pairwise_cons, List.map_cons, List.forall_mem_cons]
      exact ⟨⟨hlt, fun l hl => hlt.trans (hm l hl)⟩, List.pairwise_cons.mpr ⟨hm, hnames⟩⟩
    · next hnlt =>
      split
      · next heq =>
        rw [List.map_cons, List.pairwise_cons, heq]
        exact ⟨hm, hnames⟩
      · next hne =>
        rw [List.map_cons, List.pairwise_cons]
        refine ⟨fun l hl => ?_, ih hnames⟩
        rcases mem_insertByLabel.mp hl with rfl | hl
        · exact lt_of_le_of_ne (not_lt.mp hnlt) (Ne.symm hne)
        · exact hm l hl

theorem mem_byLabel : l ∈ (byLabel label names).map label ↔ l ∈ names.map label := by
  induction names with
  | nil => rfl
  | cons n names ih =>
    show l ∈ (insertByLabel label n (byLabel label names)).map label ↔ _
    rw [mem_insertByLabel, ih, List.map_cons, List.mem_cons]

theorem pairwise_byLabel (label : ν → String) (names : List ν) :
    ((byLabel label names).map label).Pairwise (· < ·) := by
  induction names with
  | nil => exact List.Pairwise.nil
  | cons n names ih => exact pairwise_insertByLabel ih

/-- A label that stands in a list once is gone with the first name that has it. -/
theorem mem_eraseP (h : (names.map label).Pairwise (· < ·)) :
    l ∈ (names.eraseP fun m => label m = label n).map label ↔ l ∈ names.map label ∧ l ≠ label n := by
  induction names with
  | nil => simp
  | cons m names ih =>
    rw [List.map_cons, List.pairwise_cons] at h
    obtain ⟨hm, hnames⟩ := h
    by_cases heq : label m = label n
    · have hapart : l ∈ names.map label → l ≠ label n := fun hl => heq ▸ (hm l hl).ne'
      rw [List.eraseP_cons_of_pos (by simpa using heq), List.map_cons, List.mem_cons, heq]
      tauto
    · rw [List.eraseP_cons_of_neg (by simpa using heq), List.map_cons, List.map_cons,
        List.mem_cons, List.mem_cons, ih hnames]
      have hne : l = label m → l ≠ label n := fun hl => hl ▸ heq
      tauto

theorem mem_filter_labels (bound : List String) :
    l ∈ (names.filter fun m => !bound.contains (label m)).map label ↔
      l ∈ names.map label ∧ l ∉ bound := by
  simp only [List.mem_map, List.mem_filter, Bool.not_eq_eq_eq_not, Bool.not_true,
    List.contains_eq_mem, decide_eq_false_iff_not]
  constructor
  · rintro ⟨n, ⟨hn, hl⟩, rfl⟩
    exact ⟨⟨n, hn, rfl⟩, hl⟩
  · rintro ⟨⟨n, hn, rfl⟩, hl⟩
    exact ⟨n, ⟨hn, hl⟩, rfl⟩

end Listing

variable (s : Store)

theorem pairwise_freeNames (p : Process Name) :
    ((p.freeNames s).map s.label).Pairwise (· < ·) := by
  induction p with
  | nil =>
    rw [freeNames]
    exact List.Pairwise.nil
  | replicate body ih => rwa [freeNames]
  | restrict name body ih =>
    rw [freeNames]
    exact (pairwise_byLabel s.label _).sublist ((List.eraseP_sublist ..).map _)
  | _ =>
    rw [freeNames]
    exact pairwise_byLabel ..

theorem pairwise_freeVars (p : Process Name) :
    ((p.freeVars s).map s.label).Pairwise (· < ·) := by
  induction p with
  | nil =>
    rw [freeVars]
    exact List.Pairwise.nil
  | replicate body ih => rwa [freeVars]
  | restrict name body ih => rwa [freeVars]
  | _ =>
    rw [freeVars]
    exact pairwise_byLabel ..

/-- Whether what a node holds by its label is of the sort that the node introduces. -/
def HoldsItsSort : Process Name → Prop
  | receive _ vars body =>
    ∀ n ∈ body.free s.label, s.label n ∈ vars.map s.label → s.sort n = .var
  | restrict name body =>
    ∀ n ∈ body.free s.label, s.label n = s.label name → s.sort n = .name
  | _ => True

variable {s} {p : Process Name} {l : String}

theorem mem_byLabel_flatMap {list : Process Name → List Name} {sort : NameSort} {ps : List (Process Name)}
    (h : ∀ q ∈ ps, l ∈ (list q).map s.label ↔
      ∃ n ∈ q.free s.label, s.sort n = sort ∧ s.label n = l) :
    l ∈ (byLabel s.label (ps.flatMap list)).map s.label ↔
      ∃ n ∈ (par ps).free s.label, s.sort n = sort ∧ s.label n = l := by
  rw [mem_byLabel, free, List.map_flatMap]
  simp only [List.mem_flatMap]
  constructor
  · rintro ⟨q, hq, hl⟩
    obtain ⟨n, hn, hsort⟩ := (h q hq).mp hl
    exact ⟨n, ⟨q, hq, hn⟩, hsort⟩
  · rintro ⟨n, ⟨q, hq, hn⟩, hsort⟩
    exact ⟨q, hq, (h q hq).mpr ⟨n, hn, hsort⟩⟩

/-- A restriction takes names away only, and below a receive no name is one of its variables. -/
theorem mem_freeNames (h : p.Everywhere (HoldsItsSort s)) :
    l ∈ (p.freeNames s).map s.label ↔ ∃ n ∈ p.free s.label, s.sort n = .name ∧ s.label n = l := by
  induction p with
  | nil => simp [freeNames, free]
  | send chan values =>
    rw [freeNames, mem_byLabel, free]
    simp only [ofSort, List.mem_map, List.mem_filter, decide_eq_true_eq, and_assoc]
  | receive chan vars body ih =>
    rw [everywhere_receive] at h
    obtain ⟨hroot, hbody⟩ := h
    have hvars : ∀ n ∈ body.free s.label, s.sort n = .name → s.label n ∉ vars.map s.label := by
      intro n hn hname hv
      rw [hroot n hn hv] at hname
      cases hname
    rw [freeNames, mem_byLabel, List.map_append, List.mem_append, ih hbody, free]
    simp only [ofSort, List.mem_map, List.mem_filter, List.mem_cons, List.not_mem_nil, or_false,
      decide_eq_true_eq, exists_eq_or_imp, exists_eq_left, and_assoc]
    grind
  | par ps ih =>
    rw [everywhere_par] at h
    rw [freeNames]
    exact mem_byLabel_flatMap fun q hq => ih q hq (h.2 q hq)
  | replicate body ih =>
    rw [everywhere_replicate] at h
    rw [freeNames, free]
    exact ih h.2
  | restrict name body ih =>
    rw [everywhere_restrict] at h
    rw [freeNames, mem_eraseP (pairwise_byLabel ..), mem_byLabel, ih h.2, free]
    simp only [List.mem_filter, decide_eq_true_eq]
    constructor
    · rintro ⟨⟨n, hn, hname, rfl⟩, hne⟩
      exact ⟨n, ⟨hn, hne⟩, hname, rfl⟩
    · rintro ⟨n, ⟨hn, hne⟩, hname, rfl⟩
      exact ⟨⟨n, hn, hname, rfl⟩, hne⟩

/-- A receive takes variables away only, and below a restriction no variable has its label. -/
theorem mem_freeVars (h : p.Everywhere (HoldsItsSort s)) :
    l ∈ (p.freeVars s).map s.label ↔ ∃ n ∈ p.free s.label, s.sort n = .var ∧ s.label n = l := by
  induction p with
  | nil => simp [freeVars, free]
  | send chan values =>
    rw [freeVars, mem_byLabel, free]
    simp only [ofSort, List.mem_map, List.mem_filter, decide_eq_true_eq, and_assoc]
  | receive chan vars body ih =>
    rw [everywhere_receive] at h
    rw [freeVars, mem_byLabel, List.map_append, List.mem_append,
      mem_filter_labels, ih h.2, free]
    simp only [ofSort, List.mem_map, List.mem_filter, List.mem_cons, List.not_mem_nil, or_false,
      decide_eq_true_eq, exists_eq_or_imp, exists_eq_left, and_assoc]
    grind
  | par ps ih =>
    rw [everywhere_par] at h
    rw [freeVars]
    exact mem_byLabel_flatMap fun q hq => ih q hq (h.2 q hq)
  | replicate body ih =>
    rw [everywhere_replicate] at h
    rw [freeVars, free]
    exact ih h.2
  | restrict name body ih =>
    rw [everywhere_restrict] at h
    obtain ⟨hroot, hbody⟩ := h
    have hname : ∀ n ∈ body.free s.label, s.sort n = .var → s.label n ≠ s.label name := by
      intro n hn hvar hl
      rw [hroot n hn hl] at hvar
      cases hvar
    rw [freeVars, ih hbody, free]
    simp only [List.mem_filter, decide_eq_true_eq]
    constructor
    · rintro ⟨n, hn, hvar, rfl⟩
      exact ⟨n, ⟨hn, hname n hn hvar⟩, hvar, rfl⟩
    · rintro ⟨n, ⟨hn, -⟩, hvar, rfl⟩
      exact ⟨n, hn, hvar, rfl⟩

/-- The listed labels are those that are free. -/
theorem mem_free_lists (h : p.Everywhere (HoldsItsSort s)) :
    l ∈ (p.freeNames s).map s.label ∨ l ∈ (p.freeVars s).map s.label ↔
      l ∈ (p.map s.label).freeLabels := by
  rw [mem_freeNames h, mem_freeVars h, freeLabels_map, List.mem_map]
  constructor
  · rintro (⟨n, hn, -, rfl⟩ | ⟨n, hn, -, rfl⟩)
    · exact ⟨n, hn, rfl⟩
    · exact ⟨n, hn, rfl⟩
  · rintro ⟨n, hn, rfl⟩
    cases hsort : s.sort n with
    | name => exact .inl ⟨n, hn, hsort, rfl⟩
    | var => exact .inr ⟨n, hn, hsort, rfl⟩

end PiCalculus.Process
