import Mathlib
import PiCalculus.Proofs.Process.BreadthFirst

/-! Labels that tell all names apart. A name is numbered by its place in the walk, and the number is
what stands behind the last underscore of its label. -/

namespace PiCalculus

def numbered (label : String) (i : Nat) : String := label ++ "_" ++ toString i

/-- Which number a label ends with does not depend on what stands before it. -/
theorem number_injective {l m : String} {i j : Nat} (h : numbered l i = numbered m j) : i = j := by
  have digits : ∀ k : Nat, ∀ c ∈ (Nat.toDigits 10 k).reverse, c ≠ '_' := by
    rintro k c hc rfl
    have := Nat.isDigit_of_mem_toDigits (by decide) (by decide) (List.mem_reverse.mp hc)
    cases this
  have ending : ∀ (l : String) (k : Nat), (numbered l k).toList.reverse.takeWhile (· ≠ '_') =
      (Nat.toDigits 10 k).reverse := by
    intro l k
    have hlist : (numbered l k).toList.reverse =
        (Nat.toDigits 10 k).reverse ++ '_' :: l.toList.reverse := by
      simp [numbered]
    rw [hlist, List.takeWhile_append_of_pos fun c hc => by simpa using digits k c hc]
    simp
  have hdigits := congrArg List.reverse ((ending l i).symm.trans (h ▸ ending m j))
  rw [List.reverse_reverse, List.reverse_reverse] at hdigits
  refine Nat.repr_injective ?_
  rw [Nat.repr_eq_ofList_toDigits, Nat.repr_eq_ofList_toDigits, hdigits]

theorem nodup_eraseDups {ν : Type} [DecidableEq ν] (ns : List ν) : ns.eraseDups.Nodup := by
  induction hk : ns.length using Nat.strong_induction_on generalizing ns with
  | h k ih =>
    cases ns with
    | nil => simp
    | cons n ns =>
      rw [List.eraseDups_cons, List.nodup_cons, List.mem_eraseDups]
      refine ⟨by simp, ih _ ?_ _ rfl⟩
      have := List.length_filter_le (fun b => !b == n) ns
      rw [← hk, List.length_cons]
      omega

namespace Store

/-- Numbering names of which each is given once and none is constant writes to all of them. -/
theorem writeEach_number (s : Store) (ns : List (Name × Nat)) (nodup : (ns.map Prod.fst).Nodup)
    (mutable : ∀ m ∈ ns, s.isConstant m.1 = false) :
    ∃ t, s.writeEach (fun s (n, i) => s.setLabel n (numbered (s.label n) i)) ns = ⟨t, none⟩ ∧
      (∀ n, n ∉ ns.map Prod.fst → t.get? n = s.get? n) ∧
      ∀ n i, (n, i) ∈ ns →
        t.get? n = (s.get? n).map fun e => { e with label := numbered e.label i } := by
  induction ns generalizing s with
  | nil => exact ⟨s, rfl, fun _ _ => rfl, fun _ _ h => by cases h⟩
  | cons m ns ih =>
    obtain ⟨m, i⟩ := m
    rw [List.map_cons, List.nodup_cons] at nodup
    obtain ⟨hm, hmutable⟩ := List.forall_mem_cons.mp mutable
    generalize hs : s.modify m (fun e => { e with label := numbered (s.label m) i }) = s'
    -- Each name is written once, so that its number is put on the label it had at first.
    have hkeep : ∀ n, n ≠ m → s'.get? n = s.get? n := fun n hn => by
      rw [← hs, get?_modify, if_neg hn]
    have hne : ∀ n ∈ ns, n.1 ≠ m := by
      rintro n hn rfl
      exact nodup.1 (List.mem_map.mpr ⟨n, hn, rfl⟩)
    obtain ⟨t, ht, hout, hin⟩ := ih s' nodup.2 fun n hn => by
      rw [isConstant, hkeep _ (hne n hn)]
      exact hmutable n hn
    refine ⟨t, ?_, fun n hn => ?_, fun n j hn => ?_⟩
    · rw [writeEach]
      simp only [setLabel, write, hm]
      rw [if_neg Bool.false_ne_true, hs]
      exact ht
    · rw [List.map_cons, List.mem_cons, not_or] at hn
      rw [hout n hn.2, hkeep n hn.1]
    · rcases List.mem_cons.mp hn with heq | hn
      · cases heq
        rw [hout m nodup.1, ← hs, get?_modify, if_pos rfl, label]
        cases s.get? m <;> rfl
      · rw [hin n j hn, hkeep n (hne _ hn)]

variable {s : Store} {p : Process Name}

def number (p : Process Name) (n : Name) : Nat := p.walk.eraseDups.idxOf n

theorem makeUnique_spec (mutable : ∀ n ∈ p.occurrences, s.isConstant n = false) :
    (s.makeUnique p).failure = none ∧
      ∀ n ∈ p.occurrences, (s.makeUnique p).store.get? n =
        (s.get? n).map fun e => { e with label := numbered e.label (number p n) } := by
  have hmem : ∀ {n}, n ∈ p.walk.eraseDups ↔ n ∈ p.occurrences := by
    intro n
    rw [List.mem_eraseDups, Process.mem_walk]
  have hwrite : ∃ t, s.makeUnique p = ⟨t, none⟩ ∧ _ ∧ _ :=
    writeEach_number s p.walk.eraseDups.zipIdx
      (by rw [List.zipIdx_map_fst]; exact nodup_eraseDups _)
      fun m hm => mutable m.1 (hmem.mp (List.fst_mem_of_mem_zipIdx hm))
  obtain ⟨t, ht, -, hin⟩ := hwrite
  rw [ht]
  refine ⟨rfl, fun n hn => hin n _ ?_⟩
  rw [List.mk_mem_zipIdx_iff_getElem?]
  exact List.getElem?_idxOf (hmem.mpr hn)

theorem makeUnique_label_injOn (live : ∀ n ∈ p.occurrences, s.isLive n)
    (mutable : ∀ n ∈ p.occurrences, s.isConstant n = false) {n m : Name} (hn : n ∈ p.occurrences)
    (hm : m ∈ p.occurrences)
    (h : (s.makeUnique p).store.label n = (s.makeUnique p).store.label m) : n = m := by
  have hlabel : ∀ n ∈ p.occurrences,
      (s.makeUnique p).store.label n = numbered (s.label n) (number p n) := by
    intro n hn
    obtain ⟨e, he⟩ := Option.isSome_iff_exists.mp (live n hn)
    rw [label, (makeUnique_spec mutable).2 n hn, label, he]
    rfl
  rw [hlabel n hn, hlabel m hm] at h
  refine (List.idxOf_inj ?_).mp (number_injective h)
  rwa [List.mem_eraseDups, Process.mem_walk]

end Store
end PiCalculus
