import Mathlib
import PiCalculus.Proofs.Process.Listing

/-! The lists of free names and variables as sets of labels. A list has each label once, so the lists of
a process are put together from those of its parts by unions and differences, whatever sorts and labels
its names have. -/

namespace PiCalculus

def Store.labels (s : Store) (names : List Name) : Set String := {l | l ∈ names.map s.label}

namespace Process

section Lists

variable {ν : Type} {label : ν → String} {names : List ν} {n : ν}

theorem insertByLabel_eq_cons (h : ∀ l ∈ names.map label, label n < l) :
    insertByLabel label n names = n :: names := by
  cases names with
  | nil => rfl
  | cons m names => rw [insertByLabel, if_pos (h _ List.mem_cons_self)]

theorem byLabel_eq_self (h : (names.map label).Pairwise (· < ·)) : byLabel label names = names := by
  induction names with
  | nil => rfl
  | cons n names ih =>
    rw [List.map_cons, List.pairwise_cons] at h
    show insertByLabel label n (byLabel label names) = _
    rw [ih h.2, insertByLabel_eq_cons h.1]

theorem length_eraseP_byLabel (h : (names.map label).Pairwise (· < ·)) :
    ((byLabel label names).eraseP fun m => label m = label n).length +
      (if label n ∈ names.map label then 1 else 0) = names.length := by
  rw [byLabel_eq_self h]
  split
  · next hn =>
    obtain ⟨m, hm, hl⟩ := List.mem_map.mp hn
    have hpos := List.length_pos_of_mem hm
    rw [List.length_eraseP_of_mem hm (by simpa using hl)]
    omega
  · next hn =>
    rw [List.eraseP_of_forall_not, Nat.add_zero]
    intro m hm hl
    exact hn (List.mem_map.mpr ⟨m, hm, by simpa using hl⟩)

end Lists

variable {s : Store} {names more : List Name} {n : Name}

theorem labels_byLabel : s.labels (byLabel s.label names) = s.labels names :=
  Set.ext fun _ => mem_byLabel

theorem labels_append : s.labels (names ++ more) = s.labels names ∪ s.labels more := by
  ext l
  simp [Store.labels]

theorem labels_flatMap {α : Type} (as : List α) (f : α → List Name) :
    s.labels (as.flatMap f) = ⋃ a ∈ as, s.labels (f a) := by
  ext l
  simp only [Store.labels, List.map_flatMap, List.mem_flatMap, Set.mem_ofPred_eq, Set.mem_iUnion,
    exists_prop]

theorem labels_eraseP (h : (names.map s.label).Pairwise (· < ·)) :
    s.labels (names.eraseP fun m => s.label m = s.label n) = s.labels names \ {s.label n} :=
  Set.ext fun _ => mem_eraseP h

theorem labels_filter (bound : List Name) :
    s.labels (names.filter fun m => !(bound.map s.label).contains (s.label m)) =
      s.labels names \ s.labels bound := Set.ext fun _ => mem_filter_labels _

theorem labels_ofSort (sort : NameSort) (names : List Name) :
    s.labels (ofSort s sort names) = ⋃ n ∈ names, s.labels (ofSort s sort [n]) := by
  have hsplit : ofSort s sort names = names.flatMap fun n => ofSort s sort [n] := by
    induction names with
    | nil => rfl
    | cons n names ih =>
      rw [List.flatMap_cons, ← ih]
      exact List.filter_append [n] names
  rw [hsplit, labels_flatMap]

/-- The free names and variables of a process are those of its parts, without the label of a restricted
name and the labels of received variables. The lists of them ascend strictly, so a restriction makes the
list of names shorter by one or not at all. -/
theorem free_lists_combine (s : Store) :
    let names := fun p : Process Name => s.labels (p.freeNames s)
    let vars := fun p : Process Name => s.labels (p.freeVars s)
    let own := fun sort n => s.labels (ofSort s sort [n])
    (∀ p : Process Name, ((p.freeNames s).map s.label).Pairwise (· < ·) ∧
      ((p.freeVars s).map s.label).Pairwise (· < ·)) ∧
    (names nil = ∅ ∧ vars nil = ∅) ∧
    (∀ chan values, names (send chan values) = (⋃ n ∈ chan :: values, own .name n) ∧
      vars (send chan values) = ⋃ n ∈ chan :: values, own .var n) ∧
    (∀ chan xs p, names (receive chan xs p) = own .name chan ∪ names p ∧
      vars (receive chan xs p) = vars p \ s.labels xs ∪ own .var chan) ∧
    (∀ ps, names (par ps) = (⋃ p ∈ ps, names p) ∧ vars (par ps) = ⋃ p ∈ ps, vars p) ∧
    (∀ p, names (replicate p) = names p ∧ vars (replicate p) = vars p) ∧
    ∀ a p, names (restrict a p) = names p \ {s.label a} ∧ vars (restrict a p) = vars p ∧
      ((restrict a p).freeNames s).length +
        (if s.label a ∈ (p.freeNames s).map s.label then 1 else 0) = (p.freeNames s).length := by
  intro names vars own
  refine ⟨fun p => ⟨pairwise_freeNames s p, pairwise_freeVars s p⟩, ?_, fun chan values => ?_,
    fun chan xs p => ?_, fun ps => ?_, fun p => ?_, fun a p => ?_⟩
  · simp [names, vars, freeNames, freeVars, Store.labels]
  · simp only [names, vars, freeNames, freeVars, labels_byLabel]
    exact ⟨labels_ofSort .name _, labels_ofSort .var _⟩
  · simp only [names, vars, freeNames, freeVars, labels_byLabel, labels_append, labels_filter]
    exact ⟨rfl, rfl⟩
  · simp only [names, vars, freeNames, freeVars, labels_byLabel]
    exact ⟨labels_flatMap ps _, labels_flatMap ps _⟩
  · simp only [names, vars, freeNames, freeVars, and_self]
  · have ascending := pairwise_freeNames s p
    simp only [names, vars, freeNames, freeVars, true_and]
    rw [labels_eraseP (pairwise_byLabel ..), labels_byLabel]
    exact ⟨rfl, length_eraseP_byLabel ascending⟩

end Process
end PiCalculus
