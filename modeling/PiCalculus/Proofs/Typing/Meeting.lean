import Mathlib
import PiCalculus.Proofs.Store.Mirroring
import PiCalculus.Proofs.Typing.Unification

/-! How two names are brought together. All depends on the names at which their chains of references
end: nothing is left to do if this is one name, an end without a type is given one, and two ends with
types are compared. In this way references always lead to an end. -/

namespace PiCalculus.Store

variable {s t : Store} {n m a b chan var : Name} {x : Ty Name}

/-- A chain passes a name that refers to none only at its end. -/
theorem refersTo_iff (ha : s.terminal? x = some a) (hb : ∀ m, s.type b ≠ .reference m) :
    s.refersTo x b = true ↔ b = a := by
  obtain ⟨ns, u, hfollows, hlast⟩ := terminal?_eq_some_iff.mp ha
  rw [refersTo, List.contains_iff_mem, hfollows.chain_eq]
  exact hfollows.mem_iff_of_getLast? hlast hb

theorem terminal?_of_isUntyped (hn : s.isLive n) (hu : (s.type n).isUntyped = true) :
    s.terminal? (.reference n) = some n := by
  refine terminal?_of_ne_reference hn fun m hm => ?_
  rw [hm] at hu
  cases hu

/-- The type of a name leads to the end that the name leads to, unless this is the name itself. -/
theorem terminal?_type (hb : s.terminal? (.reference n) = some b) :
    s.terminal? (s.type n) = some b ∨
      b = n ∧ s.terminal? (s.type n) = none ∧ ∀ c, s.refersTo (s.type n) c = false := by
  by_cases href : ∃ c, s.type n = .reference c
  · obtain ⟨c, hc⟩ := href
    rw [hc, ← terminal?_reference hc]
    exact .inl hb
  · push Not at href
    have hself := terminal?_of_ne_reference (isLive_of_terminal? hb) href
    rw [hself, Option.some.injEq] at hb
    have hchain := (Follows.done href).chain_eq (s := s)
    refine .inr ⟨hb.symm, ?_, fun c => ?_⟩
    · rw [terminal?, hchain]
      rfl
    · rw [refersTo, hchain]
      rfl

/-- What is brought together, by the ends of the two chains. -/
theorem unifyVar_reference (ha : s.terminal? (.reference n) = some a)
    (hb : s.terminal? (.reference var) = some b) :
    s.unifyVar chan (.reference n) var =
      if a = b then ⟨s, none⟩
      else if (s.type var).isUntyped then s.setType var (.reference n)
      else if (s.type a).isUntyped then s.setType a (s.type var)
      else if (s.type b).isUntyped then s.setType b (.reference n)
      else if s.equal (.reference n) (s.type var) then ⟨s, none⟩
      else ⟨s, some (.type ⟨s.label chan, s.span chan,
        .mismatch (s.unfold (s.deref (.reference n))) (s.unfold (s.deref (s.type var)))⟩)⟩ := by
  have htypeA : s.deref (.reference n) = s.type a := (type_of_terminal? ha).2.symm
  have htypeB : s.deref (s.type var) = s.type b := by
    rw [← deref_reference]
    exact (type_of_terminal? hb).2.symm
  have hneA := type_ne_reference_of_terminal? ha
  have hneB := type_ne_reference_of_terminal? hb
  rw [unifyVar]
  by_cases hvar : (s.type var).isUntyped = true
  -- An unknown name is the end of its own chain.
  · obtain rfl : b = var := by
      rw [terminal?_of_isUntyped (isLive_of_terminal? hb) hvar] at hb
      exact (Option.some.inj hb).symm
    simp only [hvar, if_true, refersTo_iff ha hneB, eq_comm (a := b)]
  · simp only [hvar, Bool.false_eq_true, if_false, htypeA, htypeB, ha]
    have hfound := terminal?_type hb
    cases hua : (s.type a).isUntyped with
    | true =>
      -- As the type of `a` is unknown, a chain passes `a` only at its end.
      have hrefers : (a = var ∨ s.refersTo (s.type var) a = true) ↔ a = b := by
        rcases hfound with hfound | ⟨rfl, -, hnone⟩
        · rw [refersTo_iff hfound hneA]
          exact ⟨fun h => h.resolve_left fun heq => hvar (heq ▸ hua), .inr⟩
        · simp [hnone]
      simp only [hrefers, if_true]
    | false =>
      cases hub : (s.type b).isUntyped with
      | true =>
        have hne : a ≠ b := by
          rintro rfl
          rw [hua] at hub
          cases hub
        have hend : s.terminal? (s.type var) = some b := by
          refine hfound.resolve_right ?_
          rintro ⟨rfl, -⟩
          exact hvar hub
        have hrefers : ¬ s.refersTo (.reference n) b = true := by
          rw [refersTo_iff ha hneB]
          exact hne.symm
        simp only [hend, hrefers, hne, if_false, if_true, Bool.false_eq_true]
      | false =>
        -- Names with one end agree, so that the comparison covers this case too.
        have hequal : a = b → s.equal (.reference n) (s.type var) = true := by
          rintro rfl
          exact equal_iff_agree.mpr (.of_deref_eq (htypeA.trans htypeB.symm))
        by_cases hab : a = b
        · simp [hab, hequal hab]
        · simp [hab]

/-- All names may be written to, have types that a name can have, and references lead to an end. -/
structure Sound (s : Store) : Prop where
  writable : ∀ n, s.isConstant n = false
  shallow : s.Shallow
  grounded : s.Grounded

theorem Sound.setType_eq (h : s.Sound) (n : Name) (x : Ty Name) :
    s.setType n x = ⟨(s.setType n x).store, none⟩ := by
  rw [setType, write, h.writable n]
  rfl

section unifyVar

variable (h : s.Sound) (hn : s.isLive n) (hvar : s.isLive var)

include h

theorem Sound.of_setType (hlive : s.isLive n) (hu : (s.type n).isUntyped = true)
    (hx : x.Shallow (s.isLive · = true))
    (hend : ∀ c, x = .reference c → ∃ r, s.terminal? (.reference c) = some r ∧ r ≠ n)
    (ht : s.setType n x = ⟨t, none⟩) : t.Sound ∧ s.Fills t := by
  rw [isUntyped_iff] at hu
  have hne : ∀ m, s.type n ≠ .reference m := by
    intro m hm
    rw [hu] at hm
    cases hm
  refine ⟨⟨fun c => ?_, h.shallow.of_setType ht hx, h.grounded.of_setType hlive hne ht hend⟩,
    .of_setType ht hu⟩
  rw [(retypes_of_setType ht).isConstant_eq, h.writable]

/-- Two names have met once references lead from both to one name, or both have types. -/
def Met (s : Store) (n var : Name) : Prop :=
  s.terminal? (.reference n) = s.terminal? (.reference var) ∨
    (s.deref (.reference n) ≠ .untyped ∧ s.deref (.reference var) ≠ .untyped)

omit h in
theorem Met.of_fills (hm : s.Met n var) (hf : s.Fills t) : t.Met n var := by
  rcases hm with hsame | ⟨hknown, hknown'⟩
  · exact .inl (hf.same_of_terminal?_eq hsame).2
  · refine .inr ⟨?_, ?_⟩
    · rwa [hf.deref_eq hknown]
    · rwa [hf.deref_eq hknown']

/-- What is left where two names were brought together. -/
structure Meets (s : Store) (n var : Name) (w : Written) : Prop where
  sound : w.store.Sound
  fills : s.Fills w.store
  met : w.store.Met n var
  of_failure : w.failure ≠ none → w.store = s

theorem Met.meets (hm : s.Met n var) (e : Option Error) : s.Meets n var ⟨s, e⟩ :=
  ⟨h, .refl s, hm, fun _ => rfl⟩

/-- The end of the first chain may be given the type of the second name. -/
theorem meets_of_take (ha : s.terminal? (.reference n) = some a)
    (hb : s.terminal? (.reference var) = some b) (hab : a ≠ b)
    (hu : (s.type a).isUntyped = true) (hknown : s.type var ≠ .untyped) :
    s.Meets n var (s.setType a (s.type var)) := by
  have hend : ∀ c, s.type var = .reference c →
      ∃ r, s.terminal? (.reference c) = some r ∧ r ≠ a := by
    intro c hc
    rw [terminal?_reference hc] at hb
    exact ⟨b, hb, Ne.symm hab⟩
  have hlive := (type_of_terminal? ha).1
  have ht := h.setType_eq a (s.type var)
  obtain ⟨hsound, hfills⟩ := h.of_setType hlive hu (h.shallow var) hend ht
  refine ⟨hsound, hfills, ?_, fun hfail => absurd (congrArg Written.failure ht) hfail⟩
  have htype := type_of_setType ht hlive
  have hkeep := hfills.keeps var hknown
  -- The two have come together at one end, or `a` has a known type now, which is that of `var`.
  by_cases href : ∃ c, s.type var = .reference c
  · obtain ⟨c, hc⟩ := href
    left
    rw [hfills.terminal?_eq_of_terminal? ha, terminal?_reference (htype.trans hc),
      terminal?_reference (hkeep.trans hc)]
  · push Not at href
    right
    rw [hfills.deref_eq_of_terminal? ha, deref_reference, deref_reference, htype, hkeep,
      deref_of_ne_reference href]
    exact ⟨hknown, hknown⟩

include hn

/-- The end of the second chain may be made to refer to the first one. -/
theorem meets_of_point (ha : s.terminal? (.reference n) = some a)
    (hb : s.terminal? (.reference var) = some b) (hab : a ≠ b)
    (hu : (s.type b).isUntyped = true) : s.Meets n var (s.setType b (.reference n)) := by
  have hend : ∀ c, Ty.reference n = .reference c →
      ∃ r, s.terminal? (.reference c) = some r ∧ r ≠ b := by
    rintro c ⟨⟩
    exact ⟨a, ha, hab⟩
  have hlive := (type_of_terminal? hb).1
  have ht := h.setType_eq b (.reference n)
  obtain ⟨hsound, hfills⟩ := h.of_setType hlive hu (.reference hn) hend ht
  refine ⟨hsound, hfills, .inl ?_, fun hfail => absurd (congrArg Written.failure ht) hfail⟩
  rw [hfills.terminal?_eq_of_terminal? hb, terminal?_reference (type_of_setType ht hlive)]

include hvar

/-- Names that have met are compared, and nothing is written to them. -/
theorem Met.unifyVar_eq (hm : s.Met n var) :
    s.unifyVar chan (.reference n) var =
      if s.equal (.reference n) (s.type var) then ⟨s, none⟩
      else ⟨s, some (.type ⟨s.label chan, s.span chan,
        .mismatch (s.unfold (s.deref (.reference n))) (s.unfold (s.deref (s.type var)))⟩)⟩ := by
  obtain ⟨a, ha⟩ := h.grounded n hn
  obtain ⟨b, hb⟩ := h.grounded var hvar
  have htypeA := (type_of_terminal? ha).2
  have htypeB := (type_of_terminal? hb).2
  rw [unifyVar_reference ha hb]
  by_cases hab : a = b
  · have hequal : s.equal (.reference n) (s.type var) = true := by
      refine equal_iff_agree.mpr (.of_deref_eq ?_)
      rw [← htypeA, hab, htypeB, deref_reference]
    rw [if_pos hab, if_pos hequal]
  · obtain ⟨hknown, hknown'⟩ := hm.resolve_left fun hsame => by
      rw [ha, hb, Option.some.injEq] at hsame
      exact hab hsame
    have hv : s.type var ≠ .untyped := by
      intro hu
      rw [deref_reference, hu, deref_untyped] at hknown'
      exact hknown' rfl
    rw [← htypeA] at hknown
    rw [← htypeB] at hknown'
    simp only [hab, isUntyped_iff, hv, hknown, hknown', if_false]

theorem unifyVar_meets (chan : Name) : s.Meets n var (s.unifyVar chan (.reference n) var) := by
  obtain ⟨a, ha⟩ := h.grounded n hn
  obtain ⟨b, hb⟩ := h.grounded var hvar
  rw [unifyVar_reference ha hb]
  split_ifs with hab hv hua hub hequal
  · exact Met.meets h (.inl (by rw [ha, hb, hab])) none
  · obtain rfl : b = var := by
      rw [terminal?_of_isUntyped hvar hv, Option.some.injEq] at hb
      exact hb.symm
    exact meets_of_point h hn ha hb hab hv
  · exact meets_of_take h ha hb hab hua (mt isUntyped_iff.mpr hv)
  · exact meets_of_point h hn ha hb hab hub
  all_goals
    refine Met.meets h (.inr ⟨?_, ?_⟩) _
    · rwa [isUntyped_iff, (type_of_terminal? ha).2] at hua
    · rwa [isUntyped_iff, (type_of_terminal? hb).2] at hub

end unifyVar

end PiCalculus.Store
