import Mathlib
import PiCalculus.Proofs.Store.Agreement
import PiCalculus.Proofs.Store.Writing

/-! What becomes of types as unknown ones are filled in. A type that is known stays, and so does
where it leads unless that is unknown. Types that have agreed agree later too, but for pairs of
names that were both unknown and may have been filled with different types. -/

namespace PiCalculus

/-- A type without unknown parts, all of whose references lead to certain names. -/
inductive Ty.Formed {ρ : Type} (live : ρ → Prop) : Ty ρ → Prop
  | base (label : String) : Formed live (base label)
  | chan {t : Ty ρ} (h : Formed live t) : Formed live (chan t)
  | composite {ts : List (Ty ρ)} (h : ∀ t ∈ ts, Formed live t) : Formed live (composite ts)
  | reference {n : ρ} (h : live n) : Formed live (reference n)

theorem Ty.Formed.children {ρ : Type} {live : ρ → Prop} {t : Ty ρ} (h : t.Formed live) :
    ∀ x ∈ t.children, x.Formed live := by
  cases h with
  | base label => simp [Ty.children]
  | chan h => simpa [Ty.children] using h
  | composite h => exact h
  | reference h => simp [Ty.children]

namespace Store

open Ty

variable {s t u : Store} {x y : Ty Name} {n m : Name}

/-- The second store differs from the first one in the types of names only, and only where these
were unknown. -/
structure Fills (s t : Store) : Prop where
  retypes : s.Retypes t
  keeps : ∀ n, s.type n ≠ .untyped → t.type n = s.type n

/-- The pairs of different names whose types are both unknown and are not known to be one. -/
def undecided (s : Store) : List (Name × Name) :=
  let names := ((List.range s.size).map Name.mk).filter s.isLive
  let unknown := names.filter fun n => (s.deref (.reference n)).isUntyped
  (unknown.product unknown).filter fun (a, b) =>
    s.terminal? (.reference a) ≠ s.terminal? (.reference b)

theorem isUntyped_iff : x.isUntyped = true ↔ x = .untyped := by
  cases x <;> simp [isUntyped]

theorem mem_undecided {a b : Name} :
    (a, b) ∈ s.undecided ↔ (s.isLive a ∧ s.isLive b) ∧
      (s.deref (.reference a) = .untyped ∧ s.deref (.reference b) = .untyped) ∧
      s.terminal? (.reference a) ≠ s.terminal? (.reference b) := by
  have hnames : ∀ n : Name, n ∈ ((List.range s.size).map Name.mk).filter s.isLive ↔ s.isLive n := by
    intro n
    rw [List.mem_filter, List.mem_map]
    constructor
    · exact fun h => h.2
    · exact fun h => ⟨⟨n.id, List.mem_range.mpr (id_lt_of_isLive h), rfl⟩, h⟩
  simp only [undecided, List.mem_filter, List.pair_mem_product, hnames, isUntyped_iff,
    decide_eq_true_eq]
  tauto

namespace Fills

theorem refl (s : Store) : s.Fills s := ⟨.refl s, fun _ _ => rfl⟩

theorem trans (h : s.Fills t) (h' : t.Fills u) : s.Fills u := by
  refine ⟨h.retypes.trans h'.retypes, fun n hn => ?_⟩
  have ht := h.keeps n hn
  rw [h'.keeps n (ht ▸ hn), ht]

theorem of_setType {type : Ty Name} (h : s.setType n type = ⟨t, none⟩)
    (hn : s.type n = .untyped) : s.Fills t := by
  refine ⟨retypes_of_setType h, fun m hm => type_of_setType_ne h ?_⟩
  rintro rfl
  exact hm hn

/-- References over names with known types lead on as they did. -/
theorem follows (h : s.Fills t) {ns : List Name} (hx : s.Follows x ns y) (hy : y ≠ .untyped) :
    t.Follows x ns y := by
  induction hx with
  | done hx => exact .done hx
  | @step n e ns y hn rest ih =>
    obtain ⟨type, htype⟩ := h.retypes n
    rw [hn, Option.map_some] at htype
    have hknown : s.type n ≠ .untyped := by
      rw [type_of_get? hn]
      intro hu
      rw [hu] at rest
      cases rest with
      | done => exact hy rfl
    have hkeep := h.keeps n hknown
    rw [type_of_get? hn, type_of_get? htype] at hkeep
    refine .step htype ?_
    dsimp only at hkeep ⊢
    rw [hkeep]
    exact ih hy

theorem deref_eq (h : s.Fills t) (hx : s.deref x ≠ .untyped) : t.deref x = s.deref x := by
  cases hl : (s.chain x).last with
  | none => exact absurd (deref_eq_untyped_of_last hl) hx
  | some y =>
    obtain ⟨ns, hfollows⟩ := last_chain_eq_some_iff.mp hl
    rw [hfollows.deref_eq] at hx ⊢
    exact (h.follows hfollows hx).deref_eq

/-- What is the same for a reference and for the name that its target has for its type is the same
all along a chain. -/
theorem eq_of_mem {α : Type} (h : s.Fills t) {f : Ty Name → α}
    (hf : ∀ n m, t.type n = .reference m → f (.reference n) = f (.reference m)) {k : Nat}
    (hn : n ∈ (s.chainWithin k x).names) : f x = f (.reference n) := by
  induction k generalizing x with
  | zero => cases x <;> cases hn
  | succ k ih =>
    cases x with
    | reference m =>
      rw [chainWithin] at hn
      cases he : s.get? m with
      | none =>
        simp only [he, List.mem_singleton] at hn
        rw [hn]
      | some e =>
        simp only [he, List.mem_cons] at hn
        rcases hn with rfl | hn
        · rfl
        -- The chain goes on to `n`, so the type of `m` is a reference, which is kept.
        · have hnext : ∃ m', e.type = .reference m' := by
            cases ht : e.type with
            | reference m' => exact ⟨m', rfl⟩
            | _ =>
              rw [ht] at hn
              cases k <;> cases hn
          obtain ⟨m', hm'⟩ := hnext
          have hkeep := h.keeps m (by simp [type_of_get? he, hm'])
          rw [type_of_get? he, hm'] at hkeep
          rw [hf m m' hkeep, ← hm']
          exact ih hn
    | _ => cases hn

theorem deref_eq_of_mem (h : s.Fills t) (hn : n ∈ (s.chain x).names) :
    t.deref x = t.deref (.reference n) := by
  refine h.eq_of_mem (fun n m hm => ?_) hn
  rw [deref_reference, hm]

theorem deref_eq_of_refersTo (h : s.Fills t) (hn : s.refersTo x n = true) :
    t.deref x = t.deref (.reference n) :=
  h.deref_eq_of_mem (List.contains_iff_mem.mp hn)

theorem mem_of_terminal? (hn : s.terminal? x = some n) : n ∈ (s.chain x).names := by
  obtain ⟨y, -, hlast⟩ := Option.bind_eq_some_iff.mp hn
  exact List.mem_of_getLast? hlast

theorem deref_eq_of_terminal? (h : s.Fills t) (hn : s.terminal? x = some n) :
    t.deref x = t.deref (.reference n) :=
  h.deref_eq_of_mem (mem_of_terminal? hn)

theorem terminal?_eq_of_terminal? (h : s.Fills t) (hn : s.terminal? x = some n) :
    t.terminal? x = t.terminal? (.reference n) :=
  h.eq_of_mem (fun _ _ hm => terminal?_reference hm) (mem_of_terminal? hn)

end Fills

theorem Follows.of_fills (h : s.Fills t) {ns : List Name} (hx : t.Follows x ns y) :
    ∃ ns y, s.Follows x ns y := by
  induction hx with
  | done hx => exact ⟨_, _, .done hx⟩
  | @step n e ns y hn rest ih =>
    have hlive := h.retypes.isLive_eq n
    rw [isLive_of_get? hn] at hlive
    obtain ⟨e', he'⟩ := Option.isSome_iff_exists.mp hlive.symm
    by_cases hu : s.type n = .untyped
    · rw [type_of_get? he'] at hu
      refine ⟨[n], .untyped, .step he' ?_⟩
      rw [hu]
      exact .done fun m hm => by cases hm
    · have hkeep := h.keeps n hu
      rw [type_of_get? hn, type_of_get? he'] at hkeep
      obtain ⟨ns', y', hfollows⟩ := ih
      exact ⟨_, _, .step he' (hkeep ▸ hfollows)⟩

theorem Fills.last_chain_eq_none (h : s.Fills t) (hn : s.terminal? (.reference n) = none) :
    (t.chain (.reference n)).last = none := by
  refine Option.eq_none_iff_forall_ne_some.mpr fun y hy => ?_
  obtain ⟨ns, hfollows⟩ := last_chain_eq_some_iff.mp hy
  obtain ⟨ns', y', hfollows'⟩ := Follows.of_fills h hfollows
  rw [hfollows'.terminal?_eq] at hn
  cases hfollows' with
  | done hne => exact hne n rfl
  | step => simp at hn

/-- Names that are known to be one are so for good. -/
theorem Fills.same_of_terminal?_eq (h : s.Fills t)
    (heq : s.terminal? (.reference n) = s.terminal? (.reference m)) :
    t.deref (.reference n) = t.deref (.reference m) ∧
      t.terminal? (.reference n) = t.terminal? (.reference m) := by
  cases hn : s.terminal? (.reference n) with
  | none =>
    have hlast := h.last_chain_eq_none hn
    have hlast' := h.last_chain_eq_none (heq ▸ hn)
    rw [deref_eq_untyped_of_last hlast, deref_eq_untyped_of_last hlast', terminal?, terminal?,
      hlast, hlast']
    exact ⟨rfl, rfl⟩
  | some c =>
    rw [hn] at heq
    rw [h.deref_eq_of_terminal? hn, h.deref_eq_of_terminal? heq.symm,
      h.terminal?_eq_of_terminal? hn, h.terminal?_eq_of_terminal? heq.symm]
    exact ⟨rfl, rfl⟩

theorem Fills.undecided_subset (h : s.Fills t) : t.undecided ⊆ s.undecided := by
  rintro ⟨a, b⟩ hab
  obtain ⟨⟨ha, hb⟩, ⟨hua, hub⟩, hne⟩ := mem_undecided.mp hab
  rw [h.retypes.isLive_eq] at ha hb
  have unknown : ∀ n, t.deref (.reference n) = .untyped → s.deref (.reference n) = .untyped := by
    intro n hn
    by_contra hknown
    exact hknown (h.deref_eq hknown ▸ hn)
  exact mem_undecided.mpr ⟨⟨ha, hb⟩, ⟨unknown a hua, unknown b hub⟩, fun heq =>
    hne (h.same_of_terminal?_eq heq).2⟩

/-- All types of names are unknown or have no unknown parts, and point at live names. -/
def WellFormed (s : Store) : Prop :=
  ∀ n, s.type n = .untyped ∨ (s.type n).Formed (s.isLive · = true)

theorem WellFormed.deref (h : s.WellFormed) (hx : x.Formed (s.isLive · = true)) :
    s.deref x = .untyped ∨ (s.deref x).Formed (s.isLive · = true) := by
  rcases s.deref_eq_self_or_type x with heq | ⟨n, -, heq⟩ | heq
  · rw [heq]
    exact .inr hx
  · rw [heq]
    exact h n
  · exact .inl heq

theorem Formed.exists_reference {live : Name → Prop} (hx : x.Formed live)
    (hu : s.deref x = .untyped) : ∃ n, x = .reference n ∧ live n := by
  cases hx with
  | reference hn => exact ⟨_, rfl, hn⟩
  | _ => simp at hu

/-- Types that agree go on agreeing as the store is filled, if names that are undecided now are
taken to agree. -/
theorem Fills.equalWithin (h : s.Fills t) (hs : s.WellFormed) (hx : x.Formed (s.isLive · = true))
    (hy : y.Formed (s.isLive · = true)) (hxy : s.Agree x y) (k : Nat) {assumed : List (Name × Name)}
    (hassumed : s.undecided ⊆ assumed) : t.equalWithin k assumed x y = true := by
  induction k generalizing assumed x y with
  | zero => simp [Store.equalWithin]
  | succ k ih =>
    have hknown : s.deref x ≠ .untyped → s.deref y ≠ .untyped :=
      mt hxy.deref_eq_untyped_iff.mpr
    -- What is unknown stands behind references on both sides, since other types are known.
    by_cases hrefs : ∀ a b, x = .reference a → y ≠ .reference b
    · have hne : s.deref x ≠ .untyped := by
        intro hu
        obtain ⟨a, hxa, -⟩ := Formed.exists_reference hx hu
        obtain ⟨b, hyb, -⟩ := Formed.exists_reference hy (hxy.deref_eq_untyped_iff.mp hu)
        exact hrefs a b hxa hyb
      refine (equalWithin_succ_iff hrefs).mpr ?_
      rw [h.deref_eq hne, h.deref_eq (hknown hne)]
      refine (agree_iff.mp hxy).imp_of_mem fun x' hx' y' hy' h' => ?_
      have hxf := ((hs.deref hx).resolve_left hne).children x' hx'
      have hyf := ((hs.deref hy).resolve_left (hknown hne)).children y' hy'
      exact ih hxf hyf h' hassumed
    · push Not at hrefs
      obtain ⟨a, b, rfl, rfl⟩ := hrefs
      refine equalWithin_reference_iff.mpr ?_
      by_cases hu : s.deref (.reference a) = .untyped
      · have hu' := hxy.deref_eq_untyped_iff.mp hu
        -- The two are one name for good, or they are undecided and may go apart.
        by_cases hend : s.terminal? (.reference a) = s.terminal? (.reference b)
        · have hsame := (h.same_of_terminal?_eq hend).1
          rw [hsame]
          exact .inr (.inr ((Agree.refl _).equalWithin k _))
        · cases hx with
          | reference ha =>
            cases hy with
            | reference hb =>
              exact .inr (.inl (hassumed (mem_undecided.mpr ⟨⟨ha, hb⟩, ⟨hu, hu'⟩, hend⟩)))
      · rw [h.deref_eq hu, h.deref_eq (hknown hu)]
        refine .inr (.inr (ih ((hs.deref hx).resolve_left hu)
          ((hs.deref hy).resolve_left (hknown hu)) hxy.deref ?_))
        exact fun p hp => List.mem_cons_of_mem _ (hassumed hp)

end Store
end PiCalculus
