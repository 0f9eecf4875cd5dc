import Mathlib
import PiCalculus.Proofs.Process.Structure
import PiCalculus.Proofs.Store.Unfolding
import PiCalculus.Proofs.Typing.Filling
import PiCalculus.Typing

/-! What inference leaves behind. The type of a name is unknown, a base type, or that of a channel
which carries other names; later it may be a reference too. A channel that is sent on carries what
one of the sends on it sends. -/

namespace PiCalculus

namespace Ty

variable {ρ : Type} {live : ρ → Prop}

/-- The element type of a channel that carries these. -/
def carrying : List ρ → Ty ρ
  | [n] => reference n
  | ns => composite (ns.map reference)

theorem arity_carrying (ns : List ρ) : (carrying ns).arity = ns.length := by
  unfold carrying
  split <;> simp [arity]

theorem elements_carrying (ns : List ρ) : (carrying ns).elements = ns.map reference := by
  unfold carrying
  split <;> simp [elements]

theorem carrying_of_ne_singleton {ns : List ρ} (h : ∀ n, ns ≠ [n]) :
    carrying ns = composite (ns.map reference) := by
  unfold carrying
  split
  · exact absurd rfl (h _)
  · rfl

/-- The types that names can have. -/
inductive Shallow (live : ρ → Prop) : Ty ρ → Prop
  | untyped : Shallow live untyped
  | base (label : String) : Shallow live (base label)
  | chan {ns : List ρ} (h : ∀ n ∈ ns, live n) : Shallow live (chan (carrying ns))
  | reference {n : ρ} (h : live n) : Shallow live (reference n)

theorem formed_carrying {ns : List ρ} (h : ∀ n ∈ ns, live n) : (carrying ns).Formed live := by
  unfold carrying
  split
  · exact .reference (h _ (List.mem_singleton_self _))
  · refine .composite fun t ht => ?_
    obtain ⟨n, hn, rfl⟩ := List.mem_map.mp ht
    exact .reference (h n hn)

theorem Shallow.formed {t : Ty ρ} (h : t.Shallow live) : t = Ty.untyped ∨ t.Formed live := by
  cases h with
  | untyped => exact .inl rfl
  | base label => exact .inr (.base label)
  | chan h => exact .inr (.chan (formed_carrying h))
  | reference h => exact .inr (.reference h)

theorem Shallow.mono {live' : ρ → Prop} {t : Ty ρ} (h : t.Shallow live)
    (hl : ∀ n, live n → live' n) : t.Shallow live' := by
  cases h with
  | untyped => exact .untyped
  | base label => exact .base label
  | chan h => exact .chan fun n hn => hl n (h n hn)
  | reference h => exact .reference (hl _ h)

end Ty

namespace Use

variable {ν : Type}

def chan : Use ν → ν
  | sent chan _ | received chan _ => chan

def names : Use ν → List ν
  | sent chan names | received chan names => chan :: names

end Use

namespace Process

variable {ν : Type} {p : Process ν}

theorem mem_receives_iff {chan : ν} {vars : List ν} :
    (chan, vars) ∈ p.receives ↔ .received chan vars ∈ p.uses := by
  induction p with
  | nil => simp [receives, uses]
  | send c values => simp [receives, uses]
  | receive c xs body ih => simp [receives, uses, ih, or_comm]
  | par ps ih =>
    simp only [receives, uses, List.mem_flatMap]
    exact exists_congr fun p => and_congr_right fun hp => ih p hp
  | replicate body ih => simpa [receives, uses] using ih
  | restrict name body ih => simpa [receives, uses] using ih

theorem names_subset_occurrences {use : Use ν} (h : use ∈ p.uses) : use.names ⊆ p.occurrences := by
  induction p with
  | nil => simp [uses] at h
  | send chan values =>
    rw [uses, List.mem_singleton] at h
    subst h
    rw [occurrences]
    exact fun n hn => hn
  | receive chan vars body ih =>
    rw [uses, List.mem_append, List.mem_singleton] at h
    rw [occurrences]
    rcases h with h | rfl
    · exact fun n hn => List.mem_cons_of_mem _ (List.mem_append_right _ (ih h hn))
    · exact List.cons_subset_cons _ (List.subset_append_left ..)
  | par ps ih =>
    rw [uses] at h
    obtain ⟨p, hp, h⟩ := List.mem_flatMap.mp h
    rw [occurrences]
    exact fun n hn => List.mem_flatMap.mpr ⟨p, hp, ih p hp h hn⟩
  | replicate body ih =>
    rw [uses] at h
    rw [occurrences]
    exact ih h
  | restrict name body ih =>
    rw [uses] at h
    rw [occurrences]
    exact fun n hn => List.mem_cons_of_mem _ (ih h hn)

theorem mem_occurrences_of_receives {r : ν × List ν} (hr : r ∈ p.receives) :
    r.1 ∈ p.occurrences ∧ ∀ x ∈ r.2, x ∈ p.occurrences := by
  have hsubset := names_subset_occurrences (mem_receives_iff.mp hr)
  exact ⟨hsubset List.mem_cons_self, fun x hx => hsubset (List.mem_cons_of_mem _ hx)⟩

end Process

namespace Store

variable {s t : Store} {x : Ty Name} {p : Process Name}

/-- Every name has a type that a name can have. -/
def Shallow (s : Store) : Prop := ∀ n, (s.type n).Shallow (s.isLive · = true)

theorem Shallow.wellFormed (h : s.Shallow) : s.WellFormed := fun n => (h n).formed

theorem Shallow.deref (h : s.Shallow) (hx : x.Shallow (s.isLive · = true)) :
    (s.deref x).Shallow (s.isLive · = true) := by
  rcases s.deref_eq_self_or_type x with heq | ⟨n, -, heq⟩ | heq
  · rwa [heq]
  · rw [heq]
    exact h n
  · rw [heq]
    exact .untyped

theorem Shallow.type_ne_composite (h : s.Shallow) (n : Name) (ts : List (Ty Name)) :
    s.type n ≠ .composite ts := by
  have hn := h n
  intro heq
  rw [heq] at hn
  cases hn

/-- Only a composite stands for a composite, since no name has one for its type. -/
theorem Shallow.unfoldWithin_ne_composite (h : s.Shallow) (hx : ∀ us, x ≠ .composite us)
    (k : Nat) (above : List Name) (ts : List Shape) : s.unfoldWithin k above x ≠ .composite ts := by
  induction k generalizing above x with
  | zero =>
    cases x with
    | composite us => exact absurd rfl (hx us)
    | _ => simp [unfoldWithin, Ty.bind]
  | succ k ih =>
    cases x with
    | composite us => exact absurd rfl (hx us)
    | reference n =>
      rw [unfoldWithin, Ty.bind]
      cases hnext : s.next above n with
      | none => simp
      | some u =>
        obtain ⟨-, -, rfl⟩ := isLive_of_next hnext
        exact ih (h.type_ne_composite n) (n :: above)
    | _ => simp [unfoldWithin, Ty.bind]

theorem type_of_setType_cases {n : Name} {type : Ty Name} (ht : s.setType n type = ⟨t, none⟩)
    (m : Name) : t.type m = type ∨ t.type m = s.type m ∨ t.type m = .untyped := by
  by_cases heq : m = n
  · subst heq
    cases hm : s.isLive m with
    | true => exact .inl (type_of_setType ht hm)
    | false =>
      have hlive := (retypes_of_setType ht).isLive_eq m
      exact .inr (.inr (type_of_not_isLive (hlive.trans hm)))
  · exact .inr (.inl (type_of_setType_ne ht heq))

theorem Shallow.of_setType {n : Name} {type : Ty Name} (h : s.Shallow)
    (ht : s.setType n type = ⟨t, none⟩) (htype : type.Shallow (s.isLive · = true)) : t.Shallow := by
  have hlive := (retypes_of_setType ht).isLive_eq
  intro m
  have hm : (t.type m).Shallow (s.isLive · = true) := by
    rcases type_of_setType_cases ht m with heq | heq | heq
    · rwa [heq]
    · rw [heq]
      exact h m
    · rw [heq]
      exact .untyped
  exact hm.mono fun c hc => (hlive c).trans hc

/-- As long as types are inferred, no name has a reference for its type. -/
structure Inferring (s : Store) : Prop where
  shallow : s.Shallow
  direct : ∀ n m, s.type n ≠ .reference m

namespace Inferring

theorem element_eq (h : s.Inferring) (ns : List Name) : s.element ns = .carrying ns := by
  have hpointer : s.pointer = .reference := by
    funext n
    unfold pointer
    split
    · next m hm => exact absurd hm (h.direct n m)
    · rfl
  rcases ns with _ | ⟨n, _ | ⟨m, ns⟩⟩ <;> simp [element, Ty.carrying, hpointer]

theorem of_setType (h : s.Inferring) {chan : Name} {names : List Name}
    (ht : s.setType chan (.chan (.carrying names)) = ⟨t, none⟩)
    (live : ∀ n ∈ names, s.isLive n) : t.Inferring := by
  refine ⟨h.shallow.of_setType ht (.chan live), fun n m => ?_⟩
  rcases type_of_setType_cases ht n with heq | heq | heq
  · simp [heq]
  · rw [heq]
    exact h.direct n m
  · simp [heq]

/-- One use gives a type to its own channel only. A send does so in any case, and a receive only if
the channel has no type yet. -/
theorem inferUse (h : s.Inferring) {use : Use Name} (ht : s.inferUse use = ⟨t, none⟩)
    (live : ∀ n ∈ use.names, s.isLive n) :
    t.Inferring ∧ s.Retypes t ∧ (∀ n, n ≠ use.chan → t.type n = s.type n) ∧
      match use with
      | .sent chan values => t.type chan = .chan (.carrying values)
      | .received chan _ => s.type chan ≠ .untyped → t.type chan = s.type chan := by
  cases use with
  | sent chan values =>
    obtain ⟨hchan, hvalues⟩ := List.forall_mem_cons.mp live
    rw [Store.inferUse, h.element_eq] at ht
    exact ⟨h.of_setType ht hvalues, retypes_of_setType ht, fun n hn => type_of_setType_ne ht hn,
      type_of_setType ht hchan⟩
  | received chan vars =>
    obtain ⟨hchan, hvars⟩ := List.forall_mem_cons.mp live
    rw [Store.inferUse, h.element_eq] at ht
    split at ht
    · next hu =>
      refine ⟨h.of_setType ht hvars, retypes_of_setType ht, fun n hn => type_of_setType_ne ht hn, ?_⟩
      exact fun hne => absurd (isUntyped_iff.mp hu) hne
    · cases ht
      exact ⟨h, .refl s, fun _ _ => rfl, fun _ => rfl⟩

variable {uses : List (Use Name)}

theorem writeEach (h : s.Inferring) (ht : s.writeEach Store.inferUse uses = ⟨t, none⟩)
    (live : ∀ use ∈ uses, ∀ n ∈ use.names, s.isLive n) : t.Inferring ∧ s.Retypes t := by
  refine writeEach_induction (motive := fun u => u.Inferring ∧ s.Retypes u) ht ⟨h, .refl s⟩ ?_
  rintro use huse u v ⟨hu, hsu⟩ hv
  obtain ⟨hinferring, hretypes, -⟩ := hu.inferUse hv fun n hn =>
    (hsu.isLive_eq n).trans (live use huse n hn)
  exact ⟨hinferring, hsu.trans hretypes⟩

/-- A type that is known stays where there is no send. -/
theorem type_eq (h : s.Inferring) (ht : s.writeEach Store.inferUse uses = ⟨t, none⟩)
    (live : ∀ use ∈ uses, ∀ n ∈ use.names, s.isLive n) {chan : Name}
    (hchan : ∀ values, .sent chan values ∉ uses) (known : s.type chan ≠ .untyped) :
    t.type chan = s.type chan := by
  refine (writeEach_induction (motive := fun u => (u.Inferring ∧ s.Retypes u) ∧
    u.type chan = s.type chan) ht ⟨⟨h, .refl s⟩, rfl⟩ ?_).2
  rintro use huse u v ⟨⟨hu, hsu⟩, heq⟩ hv
  obtain ⟨hinferring, hretypes, hother, hown⟩ := hu.inferUse hv fun n hn =>
    (hsu.isLive_eq n).trans (live use huse n hn)
  refine ⟨⟨hinferring, hsu.trans hretypes⟩, ?_⟩
  by_cases hc : chan = use.chan
  · cases use with
    | sent c values =>
      subst hc
      exact absurd huse (hchan values)
    | received c vars =>
      subst hc
      rw [← heq]
      exact hown (heq ▸ known)
  · rw [hother chan hc, heq]

theorem exists_sent (h : s.Inferring) (ht : s.writeEach Store.inferUse uses = ⟨t, none⟩)
    (live : ∀ use ∈ uses, ∀ n ∈ use.names, s.isLive n) {chan : Name}
    (hchan : ∃ values, .sent chan values ∈ uses) :
    ∃ values, .sent chan values ∈ uses ∧ t.type chan = .chan (.carrying values) := by
  induction uses generalizing s with
  | nil => simp at hchan
  | cons use uses ih =>
    obtain ⟨u, hfirst, hrest⟩ := of_writeEach_cons ht
    obtain ⟨huse, huses⟩ := List.forall_mem_cons.mp live
    obtain ⟨hinferring, hretypes, -, hown⟩ := h.inferUse hfirst huse
    have hlive : ∀ use ∈ uses, ∀ n ∈ use.names, u.isLive n := fun v hv n hn =>
      (hretypes.isLive_eq n).trans (huses v hv n hn)
    by_cases hlater : ∃ values, .sent chan values ∈ uses
    · obtain ⟨values, hmem, htype⟩ := ih hinferring hrest hlive hlater
      exact ⟨values, List.mem_cons_of_mem _ hmem, htype⟩
    · obtain ⟨values, hmem⟩ := hchan
      have heq := (List.mem_cons.mp hmem).resolve_right fun hmem => hlater ⟨values, hmem⟩
      subst heq
      refine ⟨values, hmem, ?_⟩
      push Not at hlater
      rw [hinferring.type_eq hrest hlive hlater (by rw [hown]; simp), hown]

end Inferring

end Store
end PiCalculus
