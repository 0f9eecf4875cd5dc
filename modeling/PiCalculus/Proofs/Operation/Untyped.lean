import Mathlib
import PiCalculus.Proofs.Store.Sorting

/-! What does not look at types. Communication, tidying up and the listing of free names see the labels
and sorts of names only, so they do the same over stores that differ in types. -/

namespace PiCalculus

namespace Store

variable {s t : Store}

namespace Retypes

theorem symm (h : s.Retypes t) : t.Retypes s := by
  intro n
  obtain ⟨type, htype⟩ := h n
  refine ⟨s.type n, ?_⟩
  rw [htype, Option.map_map]
  cases he : s.get? n with
  | none => rfl
  | some e => simp [Store.type, he]

theorem sort_eq (h : s.Retypes t) (n : Name) : t.sort n = s.sort n := by
  obtain ⟨type, htype⟩ := h n
  rw [Store.sort, Store.sort, htype, Option.map_map]
  rfl

variable (h : s.Retypes t)

include h

theorem retain (owned : List Name) : (s.retain owned).Retypes (t.retain owned) := by
  intro n
  obtain ⟨type, htype⟩ := h n
  refine ⟨type, ?_⟩
  rw [get?_retain, get?_retain, htype]
  split <;> rfl

theorem relabel (names : List Name) (newLabel : String → String) :
    (s.relabel names newLabel).Retypes (t.relabel names newLabel) := by
  intro n
  obtain ⟨type, htype⟩ := h n
  refine ⟨type, ?_⟩
  rw [get?_relabel, get?_relabel, htype, Option.map_map, Option.map_map]
  congr 1
  funext e
  simp only [Function.comp_apply]
  split <;> rfl

theorem plain (hs : s.Plain) : t.Plain := by
  constructor
  · intro n
    rw [h.sort_eq, hs.ordinary]
  · intro n
    rw [h.isConstant_eq, hs.writable]

theorem redex?_eq (p : Process Name) : t.redex? p = s.redex? p := by
  have hlabel : t.label = s.label := funext h.label_eq
  have hfree : t.isFreeName = s.isFreeName := by
    funext n
    rw [isFreeName, isFreeName, h.sort_eq]
  unfold redex?
  rw [hlabel, hfree]

/-- A step fails, does nothing or is made over both stores, with the same outcome but for types. -/
theorem reduceOnce (p : Process Name) :
    (∃ e, s.reduceOnce p = .error e ∧ t.reduceOnce p = .error e) ∨
      (s.reduceOnce p = .ok none ∧ t.reduceOnce p = .ok none) ∨
      ∃ q u, s.reduceOnce p = .ok (some q) ∧ t.reduceOnce p = .ok (some { q with store := u }) ∧
        q.store.Retypes u := by
  have hlabel : t.label = s.label := funext h.label_eq
  unfold Store.reduceOnce
  rw [h.redex?_eq, hlabel]
  -- Which step is due does not depend on types, so both stores take it or both fail.
  cases s.redex? p with
  | none => exact .inr (.inl ⟨rfl, rfl⟩)
  | some redex =>
    obtain ⟨path, ps, r⟩ := redex
    dsimp only
    unfold substitute
    split
    · next hstopped =>
      split at hstopped
      · cases hstopped
      · next huneven =>
        cases hstopped
        rw [if_neg huneven]
        exact .inl ⟨_, rfl, rfl⟩
    · next u hdone =>
      split at hdone
      · next heven =>
        cases hdone
        rw [if_pos heven]
        exact .inr (.inr ⟨_, _, rfl, rfl, h.relabel _ _⟩)
      · cases hdone

theorem reduceFrom (taken n : Nat) (p : Process Name) :
    (t.reduceFrom taken n p).process = (s.reduceFrom taken n p).process ∧
      (t.reduceFrom taken n p).steps = (s.reduceFrom taken n p).steps ∧
      (t.reduceFrom taken n p).failure = (s.reduceFrom taken n p).failure ∧
      (s.reduceFrom taken n p).store.Retypes (t.reduceFrom taken n p).store := by
  induction n generalizing s t taken p with
  | zero => exact ⟨rfl, rfl, rfl, h⟩
  | succ n ih =>
    unfold Store.reduceFrom
    rcases h.reduceOnce p with ⟨e, hs, ht⟩ | ⟨hs, ht⟩ | ⟨q, u, hs, ht, hu⟩
    · rw [hs, ht]
      exact ⟨rfl, rfl, rfl, h⟩
    · rw [hs, ht]
      exact ⟨rfl, rfl, rfl, h⟩
    · have hlabel : u.label = q.store.label := funext hu.label_eq
      rw [hs, ht]
      dsimp only
      rw [hlabel]
      exact ih hu (taken + 1) (q.process.simplify q.store.label)

theorem identifySorts (hs : s.Plain) (p : Process Name) :
    (s.identifySorts p).store.Retypes (t.identifySorts p).store := by
  obtain ⟨s', hs', -, hget⟩ := identifySorts_eq hs.writable p
  obtain ⟨t', ht', -, hget'⟩ := identifySorts_eq (h.plain hs).writable p
  rw [hs', ht']
  intro n
  obtain ⟨type, htype⟩ := h n
  refine ⟨type, ?_⟩
  rw [hget, hget', htype, Option.map_map, Option.map_map]
  congr 1
  funext e
  simp only [Function.comp_apply]
  split <;> rfl

end Retypes

end Store

namespace Process

variable {s t : Store} (hlabel : t.label = s.label) (hsort : t.sort = s.sort)

include hlabel hsort

theorem freeNames_congr (p : Process Name) : p.freeNames t = p.freeNames s := by
  have hofSort : ofSort t = ofSort s := by
    funext sort names
    rw [ofSort, ofSort, hsort]
  induction p with
  | par ps ih =>
    rw [freeNames, freeNames, hlabel, List.flatMap_congr ih]
  | _ => simp_all [freeNames]

theorem freeVars_congr (p : Process Name) : p.freeVars t = p.freeVars s := by
  have hofSort : ofSort t = ofSort s := by
    funext sort names
    rw [ofSort, ofSort, hsort]
  induction p with
  | par ps ih =>
    rw [freeVars, freeVars, hlabel, List.flatMap_congr ih]
  | _ => simp_all [freeVars]

end Process

theorem Program.subprocessLines_congr {s t : Store} (h : s.Retypes t) (style : Style)
    (p : Process Name) : (⟨p, t⟩ : Program).subprocessLines style =
      (⟨p, s⟩ : Program).subprocessLines style := by
  have hlabel : t.label = s.label := funext h.label_eq
  have hsort : t.sort = s.sort := funext h.sort_eq
  unfold subprocessLines Store.calculi
  simp only [hlabel, Process.freeNames_congr hlabel hsort, Process.freeVars_congr hlabel hsort]

end PiCalculus
