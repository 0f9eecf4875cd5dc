import Mathlib
import PiCalculus.Store.Chain

/-! Where references lead. A chain that comes to an end passes no name twice, so as many steps as
there are names are enough to see the end of it. A type with one that has no end counts as
unknown. -/

namespace PiCalculus.Store

variable {s : Store} {t u : Ty Name} {ns : List Name}

/-- From a type on, references lead over these names to a type that is no reference. -/
inductive Follows (s : Store) : Ty Name → List Name → Ty Name → Prop
  | done {t : Ty Name} (h : ∀ n, t ≠ .reference n) : Follows s t [] t
  | step {n : Name} {e : Entry} {ns : List Name} {u : Ty Name} (h : s.get? n = some e)
      (rest : Follows s e.type ns u) : Follows s (.reference n) (n :: ns) u

theorem type_of_get? {n : Name} {e : Entry} (h : s.get? n = some e) : s.type n = e.type := by
  rw [type, h, Option.map_some, Option.getD_some]

theorem isLive_of_get? {n : Name} {e : Entry} (h : s.get? n = some e) : s.isLive n := by
  rw [isLive, h, Option.isSome_some]

theorem type_of_get?_none {n : Name} (h : s.get? n = none) : s.type n = .untyped := by
  rw [type, h, Option.map_none, Option.getD_none]

theorem type_of_not_isLive {n : Name} (h : s.isLive n = false) : s.type n = .untyped :=
  type_of_get?_none (Option.not_isSome_iff_eq_none.mp (by simpa [isLive] using h))

theorem id_lt_of_isLive {n : Name} (h : s.isLive n) : n.id < s.size := by
  by_contra hn
  rw [isLive, get?, Array.getElem?_eq_none (by simpa [size] using hn)] at h
  cases h

/-- There are no more different names than there ever were. -/
theorem length_le_size_of_nodup (h : ns.Nodup) (hns : ∀ n ∈ ns, n.id < s.size) :
    ns.length ≤ s.size := by
  have hsubset : ns.map Name.id ⊆ List.range s.size := by
    intro i hi
    obtain ⟨n, hn, rfl⟩ := List.mem_map.mp hi
    exact List.mem_range.mpr (hns n hn)
  have hnodup : (ns.map Name.id).Nodup := h.map fun n m heq => by
    cases n
    cases m
    exact congrArg Name.mk heq
  have hlength := (List.subperm_of_subset hnodup hsubset).length_le
  rwa [List.length_map, List.length_range] at hlength

namespace Follows

theorem ne_reference (h : s.Follows t ns u) (n : Name) : u ≠ .reference n := by
  induction h with
  | done h => exact h n
  | step h rest ih => exact ih

theorem unique {ns' : List Name} {u' : Ty Name} (h : s.Follows t ns u) (h' : s.Follows t ns' u') :
    ns = ns' ∧ u = u' := by
  induction h generalizing ns' with
  | done h =>
    cases h' with
    | done => exact ⟨rfl, rfl⟩
    | step => exact absurd rfl (h _)
  | step h rest ih =>
    cases h' with
    | done h' => exact absurd rfl (h' _)
    | step h' rest' =>
      rw [h, Option.some.injEq] at h'
      subst h'
      obtain ⟨hns, hu⟩ := ih rest'
      exact ⟨by rw [hns], hu⟩

/-- From every name on the way the same way goes on to the same end. -/
theorem of_mem (h : s.Follows t ns u) {n : Name} (hn : n ∈ ns) :
    ∃ rest, s.Follows (.reference n) (n :: rest) u ∧ rest.length < ns.length := by
  induction h with
  | done => cases hn
  | @step m e ns u h rest ih =>
    rcases List.mem_cons.mp hn with rfl | hn
    · exact ⟨ns, .step h rest, Nat.lt_succ_self _⟩
    · obtain ⟨more, hmore, hlt⟩ := ih hn
      exact ⟨more, hmore, Nat.lt_succ_of_lt hlt⟩

theorem nodup (h : s.Follows t ns u) : ns.Nodup := by
  induction h with
  | done => exact List.nodup_nil
  | @step n e ns u h rest ih =>
    refine List.nodup_cons.mpr ⟨fun hn => ?_, ih⟩
    obtain ⟨more, hmore, hlt⟩ := rest.of_mem hn
    have hsame := (hmore.unique (.step h rest)).1
    rw [(List.cons.inj hsame).2] at hlt
    exact Nat.lt_irrefl _ hlt

theorem isLive (h : s.Follows t ns u) : ∀ n ∈ ns, s.isLive n := by
  induction h with
  | done => simp
  | step h rest ih => exact List.forall_mem_cons.mpr ⟨isLive_of_get? h, ih⟩

theorem length_le_size (h : s.Follows t ns u) : ns.length ≤ s.size :=
  length_le_size_of_nodup h.nodup fun n hn => id_lt_of_isLive (h.isLive n hn)

theorem chainWithin_eq (h : s.Follows t ns u) {k : Nat} (hk : ns.length ≤ k) :
    s.chainWithin k t = ⟨ns, some u⟩ := by
  induction h generalizing k with
  | @done t h =>
    cases t with
    | reference n => exact absurd rfl (h n)
    | _ => cases k <;> rfl
  | step h rest ih =>
    obtain ⟨k, rfl⟩ := Nat.exists_eq_succ_of_ne_zero (Nat.ne_zero_of_lt hk)
    rw [chainWithin, h]
    dsimp only
    rw [ih (Nat.le_of_succ_le_succ hk)]

theorem chain_eq (h : s.Follows t ns u) : s.chain t = ⟨ns, some u⟩ :=
  h.chainWithin_eq h.length_le_size

theorem deref_eq (h : s.Follows t ns u) : s.deref t = u := by
  rw [deref, h.chain_eq, Option.getD_some]

theorem terminal?_eq (h : s.Follows t ns u) : s.terminal? t = ns.getLast? := by
  rw [terminal?, h.chain_eq, Option.bind_some]

theorem eq_of_nil (h : s.Follows t [] u) : u = t := by
  cases h
  rfl

/-- The last name on the way has the type that stands at the end. -/
theorem type_of_getLast? (h : s.Follows t ns u) {n : Name} (hn : ns.getLast? = some n) :
    s.isLive n ∧ s.type n = u := by
  induction h with
  | done => cases hn
  | @step m e ns u h rest ih =>
    cases ns with
    | nil =>
      obtain rfl : m = n := by simpa using hn
      exact ⟨isLive_of_get? h, (type_of_get? h).trans rest.eq_of_nil.symm⟩
    | cons m' ns => exact ih (by simpa using hn)

end Follows

theorem follows_of_chainWithin {k : Nat} (h : (s.chainWithin k t).last = some u) :
    s.Follows t (s.chainWithin k t).names u := by
  induction k generalizing t with
  | zero =>
    cases t with
    | reference n => cases h
    | _ =>
      cases h
      exact .done fun n hn => by cases hn
  | succ k ih =>
    cases t with
    | reference n =>
      rw [chainWithin] at h ⊢
      cases he : s.get? n with
      | none => simp [he] at h
      | some e =>
        rw [he] at h
        exact .step he (ih h)
    | _ =>
      cases h
      exact .done fun n hn => by cases hn

/-- A chain has an end exactly if references lead somewhere. -/
theorem last_chain_eq_some_iff : (s.chain t).last = some u ↔ ∃ ns, s.Follows t ns u := by
  constructor
  · intro h
    exact ⟨_, follows_of_chainWithin h⟩
  · rintro ⟨ns, h⟩
    rw [h.chain_eq]

theorem deref_of_ne_reference (h : ∀ n, t ≠ .reference n) : s.deref t = t :=
  (Follows.done h).deref_eq

@[simp] theorem deref_untyped : s.deref .untyped = .untyped := deref_of_ne_reference (by simp)

@[simp] theorem deref_base (label : String) : s.deref (.base label) = .base label :=
  deref_of_ne_reference (by simp)

@[simp] theorem deref_chan (t : Ty Name) : s.deref (.chan t) = .chan t :=
  deref_of_ne_reference (by simp)

@[simp] theorem deref_composite (ts : List (Ty Name)) :
    s.deref (.composite ts) = .composite ts := deref_of_ne_reference (by simp)

theorem deref_eq_untyped_of_last (h : (s.chain t).last = none) : s.deref t = .untyped := by
  rw [deref, h, Option.getD_none]

/-- Dereferencing goes through a name to its type, also where no end is reached. -/
theorem deref_reference (n : Name) : s.deref (.reference n) = s.deref (s.type n) := by
  cases he : s.get? n with
  | none =>
    rw [type_of_get?_none he, deref_untyped]
    refine deref_eq_untyped_of_last (Option.eq_none_iff_forall_ne_some.mpr fun u hu => ?_)
    obtain ⟨ns, h⟩ := last_chain_eq_some_iff.mp hu
    cases h with
    | done h => exact h n rfl
    | step h _ => simp [h] at he
  | some e =>
    have hiff : ∀ u, (s.chain (.reference n)).last = some u ↔ (s.chain (s.type n)).last = some u := by
      intro u
      rw [last_chain_eq_some_iff, last_chain_eq_some_iff, type_of_get? he]
      constructor
      · rintro ⟨ns, h⟩
        cases h with
        | done h => exact absurd rfl (h n)
        | step h rest =>
          rw [he, Option.some.injEq] at h
          subst h
          exact ⟨_, rest⟩
      · rintro ⟨ns, h⟩
        exact ⟨_, .step he h⟩
    rw [deref, deref, Option.ext hiff]

theorem deref_ne_reference (s : Store) (t : Ty Name) (n : Name) : s.deref t ≠ .reference n := by
  cases hl : (s.chain t).last with
  | none =>
    rw [deref_eq_untyped_of_last hl]
    simp
  | some u =>
    obtain ⟨ns, h⟩ := last_chain_eq_some_iff.mp hl
    rw [h.deref_eq]
    exact h.ne_reference n

theorem deref_deref (s : Store) (t : Ty Name) : s.deref (s.deref t) = s.deref t :=
  deref_of_ne_reference (s.deref_ne_reference t)

theorem terminal?_eq_some_iff {n : Name} :
    s.terminal? t = some n ↔ ∃ ns u, s.Follows t ns u ∧ ns.getLast? = some n := by
  constructor
  · intro hn
    obtain ⟨u, hlast, hn⟩ := Option.bind_eq_some_iff.mp hn
    obtain ⟨ns, h⟩ := last_chain_eq_some_iff.mp hlast
    rw [h.chain_eq] at hn
    exact ⟨ns, u, h, hn⟩
  · rintro ⟨ns, u, h, hlast⟩
    rw [h.terminal?_eq, hlast]

/-- The name at the end of the references has the type there. -/
theorem type_of_terminal? {n : Name} (hn : s.terminal? t = some n) :
    s.isLive n ∧ s.type n = s.deref t := by
  obtain ⟨ns, u, h, hlast⟩ := terminal?_eq_some_iff.mp hn
  rw [h.deref_eq]
  exact h.type_of_getLast? hlast

theorem terminal?_reference {n m : Name} (hn : s.type n = .reference m) :
    s.terminal? (.reference n) = s.terminal? (.reference m) := by
  have he : ∃ e, s.get? n = some e := by
    cases he : s.get? n with
    | none => simp [type_of_get?_none he] at hn
    | some e => exact ⟨e, rfl⟩
  obtain ⟨e, he⟩ := he
  rw [type_of_get? he] at hn
  refine Option.ext fun c => ?_
  rw [terminal?_eq_some_iff, terminal?_eq_some_iff]
  constructor
  · rintro ⟨ns, u, h, hlast⟩
    cases h with
    | done h => exact absurd rfl (h n)
    | @step _ _ ns _ h rest =>
      rw [he, Option.some.injEq] at h
      subst h
      rw [hn] at rest
      refine ⟨ns, u, rest, ?_⟩
      cases ns with
      | nil => exact absurd rest.eq_of_nil (rest.ne_reference m)
      | cons => simpa using hlast
  · rintro ⟨ns, u, h, hlast⟩
    refine ⟨n :: ns, u, .step he (hn ▸ h), ?_⟩
    cases ns with
    | nil => cases hlast
    | cons => simpa using hlast

/-- What a type is at the end of its references stands in it or is the type of a name, unless it is
unknown. -/
theorem deref_eq_self_or_type (s : Store) (t : Ty Name) :
    s.deref t = t ∨ (∃ n, s.isLive n ∧ s.deref t = s.type n) ∨ s.deref t = .untyped := by
  cases hl : (s.chain t).last with
  | none => exact .inr (.inr (deref_eq_untyped_of_last hl))
  | some u =>
    obtain ⟨ns, h⟩ := last_chain_eq_some_iff.mp hl
    rw [h.deref_eq]
    cases hn : ns.getLast? with
    | none =>
      rw [List.getLast?_eq_none_iff.mp hn] at h
      exact .inl h.eq_of_nil
    | some n =>
      obtain ⟨hlive, htype⟩ := h.type_of_getLast? hn
      exact .inr (.inl ⟨n, hlive, htype.symm⟩)

end PiCalculus.Store
