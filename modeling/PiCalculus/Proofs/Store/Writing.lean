import Mathlib
import PiCalculus.Store.Write

/-! Passes that come to their end, and those that write types only. -/

namespace PiCalculus.Store

variable {s t u : Store} {n m : Name} {type : Ty Name}

/-- A store is what is known of its names, and how many names there ever were. -/
theorem ext_get? (hsize : s.size = t.size) (h : ∀ n, s.get? n = t.get? n) : s = t := by
  obtain ⟨entries⟩ := s
  obtain ⟨entries'⟩ := t
  rw [Store.mk.injEq]
  refine Array.ext hsize fun i hi hi' => ?_
  simpa [get?, Array.getElem?_eq_getElem hi, Array.getElem?_eq_getElem hi'] using h ⟨i⟩

theorem size_modify (s : Store) (n : Name) (f : Entry → Entry) : (s.modify n f).size = s.size := by
  simp [modify, size]

theorem size_retain (s : Store) (owned : List Name) : (s.retain owned).size = s.size := by
  simp [retain, size]

theorem type_retain {owned : List Name} (s : Store) (hn : n ∈ owned) :
    (s.retain owned).type n = s.type n := by
  rw [type, get?_retain, if_pos hn, type]

theorem retain_eq_self {owned : List Name} (h : ∀ n, s.isLive n → n ∈ owned) :
    s.retain owned = s := by
  apply ext_get? (s.size_retain owned)
  intro n
  rw [get?_retain]
  split
  · rfl
  · next hn =>
    have hdead : ¬ s.isLive n := mt (h n) hn
    exact (Option.not_isSome_iff_eq_none.mp hdead).symm

section Each

variable {α : Type} {write : Store → α → Written} {a : α} {as : List α}

theorem of_writeEach_cons (h : writeEach write s (a :: as) = ⟨u, none⟩) :
    ∃ t, write s a = ⟨t, none⟩ ∧ writeEach write t as = ⟨u, none⟩ := by
  rw [writeEach] at h
  split at h
  · next t ht => exact ⟨t, ht, h⟩
  · next hstopped => exact absurd h (hstopped u)

/-- A pass that fails does so at one of its items, over what the items before it have left. -/
theorem writeEach_failure_induction {motive : Store → Prop} {e : Error}
    (h : writeEach write s as = ⟨u, some e⟩) (start : motive s)
    (step : ∀ a ∈ as, ∀ s t, motive s → write s a = ⟨t, none⟩ → motive t) :
    ∃ a ∈ as, ∃ t, motive t ∧ write t a = ⟨u, some e⟩ := by
  induction as generalizing s with
  | nil => cases h
  | cons a as ih =>
    rw [writeEach] at h
    split at h
    · next t ht =>
      obtain ⟨b, hb, hfails⟩ := ih h (step a List.mem_cons_self s t start ht) fun b hb =>
        step b (List.mem_cons_of_mem a hb)
      exact ⟨b, List.mem_cons_of_mem a hb, hfails⟩
    · exact ⟨a, List.mem_cons_self, s, start, h⟩

theorem exists_of_writeEach_failure {e : Error} (h : writeEach write s as = ⟨u, some e⟩) :
    ∃ a ∈ as, ∃ t, write t a = ⟨u, some e⟩ := by
  obtain ⟨a, ha, t, -, hfails⟩ :=
    writeEach_failure_induction (motive := fun _ => True) h trivial fun _ _ _ _ _ _ => trivial
  exact ⟨a, ha, t, hfails⟩

/-- What holds at first and is kept by every step holds in the end. -/
theorem writeEach_induction {motive : Store → Prop} (h : writeEach write s as = ⟨u, none⟩)
    (start : motive s) (step : ∀ a ∈ as, ∀ s t, motive s → write s a = ⟨t, none⟩ → motive t) :
    motive u := by
  induction as generalizing s with
  | nil =>
    cases h
    exact start
  | cons a as ih =>
    obtain ⟨t, hfirst, hrest⟩ := of_writeEach_cons h
    refine ih hrest (step a List.mem_cons_self s t start hfirst) fun b hb => ?_
    exact step b (List.mem_cons_of_mem _ hb)

/-- What holds at first and is kept by every step, also one that fails, holds where the pass ends. -/
theorem writeEach_store_induction {motive : Store → Prop} (start : motive s)
    (step : ∀ a ∈ as, ∀ s, motive s → motive (write s a).store) :
    motive (writeEach write s as).store := by
  induction as generalizing s with
  | nil => exact start
  | cons a as ih =>
    have hfirst := step a List.mem_cons_self s start
    rw [writeEach]
    split
    · next t ht =>
      rw [ht] at hfirst
      exact ih hfirst fun b hb => step b (List.mem_cons_of_mem _ hb)
    · exact hfirst

/-- The place of an item divides a pass into what is before it, its own step and what follows. -/
theorem of_writeEach_getElem? (h : writeEach write s as = ⟨u, none⟩) {i : Nat}
    (hi : as[i]? = some a) :
    ∃ t t', writeEach write s (as.take i) = ⟨t, none⟩ ∧ write t a = ⟨t', none⟩ ∧
      writeEach write t' (as.drop (i + 1)) = ⟨u, none⟩ := by
  induction as generalizing s i with
  | nil => simp at hi
  | cons b as ih =>
    obtain ⟨t, hfirst, hrest⟩ := of_writeEach_cons h
    cases i with
    | zero =>
      obtain rfl : b = a := by simpa using hi
      exact ⟨s, t, rfl, hfirst, hrest⟩
    | succ i =>
      obtain ⟨t₁, t₂, hbefore, hstep, hafter⟩ := ih hrest (i := i) (by simpa using hi)
      refine ⟨t₁, t₂, ?_, hstep, by simpa using hafter⟩
      rw [List.take_succ_cons, writeEach, hfirst]
      exact hbefore

end Each

/-- Two stores differ in the types of names at most. -/
def Retypes (s t : Store) : Prop := ∀ n, ∃ type, t.get? n = (s.get? n).map fun e => { e with type }

namespace Retypes

theorem refl (s : Store) : s.Retypes s := fun n =>
  ⟨s.type n, by cases h : s.get? n <;> simp [Store.type, h]⟩

theorem trans (h : s.Retypes t) (h' : t.Retypes u) : s.Retypes u := by
  intro n
  obtain ⟨type, htype⟩ := h n
  obtain ⟨type', htype'⟩ := h' n
  refine ⟨type', ?_⟩
  rw [htype', htype, Option.map_map]
  rfl

theorem isLive_eq (h : s.Retypes t) (n : Name) : t.isLive n = s.isLive n := by
  obtain ⟨type, htype⟩ := h n
  rw [isLive, isLive, htype, Option.isSome_map]

theorem label_eq (h : s.Retypes t) (n : Name) : t.label n = s.label n := by
  obtain ⟨type, htype⟩ := h n
  rw [label, label, htype, Option.map_map]
  rfl

theorem isConstant_eq (h : s.Retypes t) (n : Name) : t.isConstant n = s.isConstant n := by
  obtain ⟨type, htype⟩ := h n
  rw [isConstant, isConstant, htype, Option.map_map]
  rfl

end Retypes

theorem of_setType (h : s.setType n type = ⟨t, none⟩) :
    t = s.modify n fun e => { e with type } := by
  unfold setType write at h
  split at h
  · cases h
  · exact (Written.mk.inj h).1.symm

theorem retypes_of_setType (h : s.setType n type = ⟨t, none⟩) : s.Retypes t := by
  intro m
  obtain rfl := of_setType h
  rw [get?_modify]
  by_cases hm : m = n
  · exact ⟨type, if_pos hm⟩
  · rw [if_neg hm]
    exact Retypes.refl s m

theorem type_of_setType (h : s.setType n type = ⟨t, none⟩) (live : s.isLive n) : t.type n = type := by
  obtain rfl := of_setType h
  obtain ⟨e, he⟩ := Option.isSome_iff_exists.mp live
  rw [Store.type, get?_modify, if_pos rfl, he]
  rfl

theorem type_of_setType_ne (h : s.setType n type = ⟨t, none⟩) (hm : m ≠ n) :
    t.type m = s.type m := by
  obtain rfl := of_setType h
  rw [Store.type, get?_modify, if_neg hm, Store.type]

end PiCalculus.Store
