import Mathlib
import PiCalculus.Proofs.Process.BreadthFirst
import PiCalculus.Proofs.Process.Context
import PiCalculus.Typing

/-! What is gathered from all nodes of a process: its names, its binders, or its sends and receives.
Up to the order it does not matter how one goes through the nodes, and putting something at a place
leaves what is gathered outside. -/

namespace PiCalculus.Process

variable {ν α : Type}

theorem children_replaceAt {p c : Process ν} {i : Nat} {path : List Nat} {new : Process ν}
    (h : p.children[i]? = some c) :
    (p.replaceAt (i :: path) new).children = p.children.set i (c.replaceAt path new) := by
  cases p with
  | nil => cases h
  | send chan values => cases h
  | par ps =>
    rw [children] at h
    rw [replaceAt, children, children, List.modify_eq_set_getElem?, h]
    rfl
  | _ =>
    obtain ⟨rfl, rfl⟩ := of_getElem?_singleton h
    rw [replaceAt]
    rfl

/-- What is gathered inside a process is what its root has and what is gathered inside its children.
A root has the same whatever is put further down. -/
structure Gathers (atRoot inside : Process ν → List α) : Prop where
  perm : ∀ p, (inside p).Perm (atRoot p ++ p.children.flatMap inside)
  root : ∀ p i path new, atRoot (p.replaceAt (i :: path) new) = atRoot p

namespace Gathers

variable {atRoot inside : Process ν → List α} {p q : Process ν} {path : List Nat}
  {ps : List (Process ν)} {i : Nat}

open scoped List in
theorem generations_perm (h : Gathers atRoot inside) {n : Nat} (low : ∀ p ∈ ps, p.height ≤ n) :
    ((generations n ps).flatMap atRoot).Perm (ps.flatMap inside) := by
  induction n generalizing ps with
  | zero =>
    obtain rfl : ps = [] := by
      refine List.eq_nil_iff_forall_not_mem.mpr fun p hp => ?_
      have hzero := low p hp
      have hpos := p.height_pos
      omega
    rfl
  | succ n ih =>
    -- The later generations hold what is inside the children of the first one.
    have hchildren := ih (height_children_le low)
    rw [List.flatMap_assoc] at hchildren
    rw [generations, List.flatMap_append]
    calc ps.flatMap atRoot ++ (generations n (ps.flatMap children)).flatMap atRoot
      _ ~ ps.flatMap atRoot ++ ps.flatMap (fun p => p.children.flatMap inside) :=
        hchildren.append_left _
      _ ~ ps.flatMap (fun p => atRoot p ++ p.children.flatMap inside) :=
        List.flatMap_append_perm ps _ _
      _ ~ ps.flatMap inside := List.Perm.flatMap_left ps fun p _ => (h.perm p).symm

theorem breadthFirst_perm (h : Gathers atRoot inside) (p : Process ν) :
    (p.breadthFirst.flatMap atRoot).Perm (inside p) := by
  have hlow : ∀ q ∈ [p], q.height ≤ p.height := by simp
  have hperm := h.generations_perm hlow
  rwa [List.flatMap_singleton] at hperm

open scoped List in
/-- Some of it is gathered outside a place, and all else comes from what stands or is put there. -/
theorem replaceAt_perm (h : Gathers atRoot inside) (hat : p.at? path = some q) :
    ∃ outside, (inside p).Perm (outside ++ inside q) ∧
      ∀ new, (inside (p.replaceAt path new)).Perm (outside ++ inside new) := by
  induction path generalizing p with
  | nil =>
    obtain rfl : p = q := Option.some.inj hat
    exact ⟨[], .refl _, fun new => by rw [replaceAt, List.nil_append]⟩
  | cons i path ih =>
    obtain ⟨c, hc, hat⟩ := Option.bind_eq_some_iff.mp hat
    obtain ⟨outside, hself, hput⟩ := ih hat
    obtain ⟨as, bs, hsplit, rfl⟩ := split_of_getElem? hc
    -- The children on both sides are gathered outside the place too.
    have haround : ∀ {r c' new}, (inside r).Perm (atRoot p ++ (as ++ c' :: bs).flatMap inside) →
        (inside c').Perm (outside ++ inside new) →
        (inside r).Perm ((atRoot p ++ (as.flatMap inside ++ bs.flatMap inside) ++ outside) ++
          inside new) := by
      intro r c' new hr hc'
      rw [List.flatMap_append, List.flatMap_cons] at hr
      calc inside r
        _ ~ atRoot p ++ (as.flatMap inside ++ (inside c' ++ bs.flatMap inside)) := hr
        _ ~ atRoot p ++ (as.flatMap inside ++ (bs.flatMap inside ++ (outside ++ inside new))) :=
          ((List.perm_append_comm.trans (hc'.append_left _)).append_left _).append_left _
        _ ~ _ := by simp
    refine ⟨_, haround (hsplit ▸ h.perm p) hself, fun new => ?_⟩
    have hnew := h.perm (p.replaceAt (as.length :: path) new)
    rw [h.root, children_replaceAt hc, hsplit, List.set_append_right _ _ (Nat.le_refl _),
      Nat.sub_self, List.set_cons_zero] at hnew
    exact haround hnew (hput new)

theorem subset_of_at? (h : Gathers atRoot inside) (hat : p.at? path = some q) : inside q ⊆ inside p := by
  obtain ⟨outside, hself, -⟩ := h.replaceAt_perm hat
  exact fun a ha => hself.symm.subset (List.mem_append_right _ ha)

theorem set_perm (h : Gathers atRoot inside) (hp : ps[i]? = some p) :
    ∃ outside, (inside (par ps)).Perm (outside ++ inside p) ∧
      ∀ new, (inside (par (ps.set i new))).Perm (outside ++ inside new) := by
  have hat : (par ps).at? [i] = some p := by
    rw [at?, children, hp]
    rfl
  obtain ⟨outside, hself, hput⟩ := h.replaceAt_perm hat
  refine ⟨outside, hself, fun new => ?_⟩
  have hset : (par ps).replaceAt [i] new = par (ps.set i new) := by
    rw [replaceAt, List.modify_eq_set_getElem?, hp]
    rfl
  exact hset ▸ hput new

end Gathers

def rootBinders : Process ν → List ν
  | .receive _ vars _ => vars
  | .restrict name _ => [name]
  | _ => []

def rootUses : Process ν → List (Use ν)
  | .send chan values => [.sent chan values]
  | .receive chan vars _ => [.received chan vars]
  | _ => []

def rootUsedNames : Process ν → List ν
  | .send chan values => chan :: values
  | .receive chan _ _ => [chan]
  | _ => []

theorem gathers_binders : Gathers (ν := ν) rootBinders binders := by
  refine ⟨fun p => ?_, fun p i path new => ?_⟩
  · cases p <;> simp [binders, rootBinders, children]
  · cases p <;> cases i <;> rfl

theorem gathers_uses : Gathers (ν := ν) rootUses uses := by
  refine ⟨fun p => ?_, fun p i path new => ?_⟩
  · cases p with
    | receive chan vars body =>
      rw [uses, rootUses, children, List.flatMap_singleton]
      exact List.perm_append_comm
    | _ => simp [uses, rootUses, children]
  · cases p <;> cases i <;> rfl

theorem gathers_usedNames : Gathers (ν := ν) rootUsedNames usedNames := by
  refine ⟨fun p => ?_, fun p i path new => ?_⟩
  · cases p <;> simp [usedNames, rootUsedNames, children]
  · cases p <;> cases i <;> rfl

theorem gathers_occurrences : Gathers (ν := ν) rootNames occurrences := by
  refine ⟨fun p => ?_, fun p i path new => ?_⟩
  · cases p <;> simp [occurrences, rootNames, children]
  · cases p <;> cases i <;> rfl

end PiCalculus.Process
