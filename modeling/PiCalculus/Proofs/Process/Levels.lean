import Mathlib
import PiCalculus.Proofs.Process.BreadthFirst

/-! The nodes of a process depth by depth, with their places. Breadth-first order goes through all of
them, and their places ascend by length and, where these are equal, from left to right. -/

namespace PiCalculus.Process

variable {ν : Type} {p q r : Process ν} {place : List Nat} {d : Nat}

/-- The nodes at a depth from left to right, with their places. -/
def nodesAt : Nat → Process ν → List (List Nat × Process ν)
  | 0, p => [([], p)]
  | d + 1, p => p.children.zipIdx.flatMap fun child =>
    (child.1.nodesAt d).map (Prod.map (child.2 :: ·) id)

/-- All nodes with their places, those less deep before the others. -/
def nodes (p : Process ν) : List (List Nat × Process ν) :=
  (List.range p.height).flatMap fun d => p.nodesAt d

theorem mem_nodesAt : (place, q) ∈ p.nodesAt d ↔ place.length = d ∧ p.at? place = some q := by
  induction d generalizing p place with
  | zero => cases place <;> simp [nodesAt, at?, eq_comm]
  | succ d ih =>
    rw [nodesAt, List.mem_flatMap]
    constructor
    · rintro ⟨⟨child, i⟩, hchild, hmem⟩
      obtain ⟨⟨way, r⟩, hway, heq⟩ := List.mem_map.mp hmem
      obtain ⟨rfl, rfl⟩ := Prod.mk.inj heq
      obtain ⟨hlength, hat⟩ := ih.mp hway
      refine ⟨congrArg (· + 1) hlength, ?_⟩
      rw [at?, List.mk_mem_zipIdx_iff_getElem?.mp hchild]
      exact hat
    · rintro ⟨hlength, hat⟩
      cases place with
      | nil => cases hlength
      | cons i way =>
        obtain ⟨child, hchild, hway⟩ := Option.bind_eq_some_iff.mp hat
        refine ⟨(child, i), List.mk_mem_zipIdx_iff_getElem?.mpr hchild, ?_⟩
        exact List.mem_map.mpr ⟨(way, q), ih.mpr ⟨Nat.succ.inj hlength, hway⟩, rfl⟩

theorem length_lt_height (hat : p.at? place = some q) : place.length < p.height := by
  induction place generalizing p with
  | nil => exact p.height_pos
  | cons i place ih =>
    obtain ⟨child, hchild, hplace⟩ := Option.bind_eq_some_iff.mp hat
    have hlower := height_lt_of_mem_children (List.mem_of_getElem? hchild)
    exact (Nat.succ_le_of_lt (ih hplace)).trans_lt hlower

theorem mem_nodes : (place, q) ∈ p.nodes ↔ p.at? place = some q := by
  rw [nodes, List.mem_flatMap]
  constructor
  · rintro ⟨d, -, hmem⟩
    exact (mem_nodesAt.mp hmem).2
  · intro hat
    exact ⟨place.length, List.mem_range.mpr (length_lt_height hat), mem_nodesAt.mpr ⟨rfl, hat⟩⟩

theorem pairwise_zipIdx {α : Type} (as : List α) : as.zipIdx.Pairwise (·.2 < ·.2) := by
  rw [← List.pairwise_map, List.zipIdx_map_snd]
  exact List.pairwise_lt_range'

/-- At one depth the places ascend from left to right. -/
theorem pairwise_nodesAt (d : Nat) (p : Process ν) :
    (p.nodesAt d).Pairwise fun a b => List.Shortlex (· < ·) a.1 b.1 := by
  induction d generalizing p with
  | zero => exact List.pairwise_singleton _ _
  | succ d ih =>
    rw [nodesAt, List.pairwise_flatMap]
    refine ⟨fun child _ => ?_, (pairwise_zipIdx p.children).imp ?_⟩
    · exact List.pairwise_map.mpr ((ih child.1).imp fun h => h.cons)
    · rintro ⟨c, i⟩ ⟨c', j⟩ hij a ha b hb
      obtain ⟨⟨way, q⟩, hway, rfl⟩ := List.mem_map.mp ha
      obtain ⟨⟨way', q'⟩, hway', rfl⟩ := List.mem_map.mp hb
      have hlength := (mem_nodesAt.mp hway).1.trans (mem_nodesAt.mp hway').1.symm
      exact .of_lex (congrArg (· + 1) hlength) (.rel hij)

theorem pairwise_nodes (p : Process ν) :
    p.nodes.Pairwise fun a b => List.Shortlex (· < ·) a.1 b.1 := by
  rw [nodes, List.pairwise_flatMap]
  refine ⟨fun d _ => pairwise_nodesAt d p, List.pairwise_lt_range.imp ?_⟩
  rintro d e hde ⟨place, q⟩ hq ⟨place', q'⟩ hq'
  apply List.Shortlex.of_length_lt
  rw [(mem_nodesAt.mp hq).1, (mem_nodesAt.mp hq').1]
  exact hde

theorem map_snd_nodesAt_succ (d : Nat) (p : Process ν) :
    (p.nodesAt (d + 1)).map Prod.snd = p.children.flatMap fun q => (q.nodesAt d).map Prod.snd := by
  rw [nodesAt, List.map_flatMap]
  simp only [List.map_map, Prod.map_snd', Function.id_comp]
  conv_rhs => rw [← List.zipIdx_map_fst 0 p.children, List.flatMap_map]

/-- A generation is what stands at one depth below the first one. -/
theorem generations_eq_flatMap (n : Nat) (ps : List (Process ν)) :
    generations n ps =
      (List.range n).flatMap fun d => ps.flatMap fun p => (p.nodesAt d).map Prod.snd := by
  induction n generalizing ps with
  | zero => rfl
  | succ n ih =>
    have hfirst : ps.flatMap (fun p => (p.nodesAt 0).map Prod.snd) = ps :=
      List.flatMap_singleton' ps
    rw [generations, ih, List.range_succ_eq_map, List.flatMap_cons, List.flatMap_map, hfirst]
    simp only [map_snd_nodesAt_succ, List.flatMap_assoc]

theorem map_snd_nodes (p : Process ν) : p.nodes.map Prod.snd = p.breadthFirst := by
  rw [breadthFirst, generations_eq_flatMap, nodes, List.map_flatMap]
  simp only [List.flatMap_singleton]

end PiCalculus.Process
