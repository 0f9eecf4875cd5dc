import Mathlib
import PiCalculus.Proofs.Store.Agreement
import PiCalculus.Proofs.Store.Unfolding
import PiCalculus.Proofs.Store.Writing

/-! Stores that know the same of names with other identities. Where a type points at a name in one
of them, it may point in the other at what this name only refers to. Whatever is found out about a
type by following its references is the same in both, and it stays so as both are written to. -/

namespace PiCalculus

namespace Ty

variable {ρ σ τ : Type} {r : ρ → σ → Prop} {t : Ty ρ} {u : Ty σ}

/-- Types that are built alike and point at related targets. -/
inductive Mirrored (r : ρ → σ → Prop) : Ty ρ → Ty σ → Prop
  | untyped : Mirrored r untyped untyped
  | base (label : String) : Mirrored r (base label) (base label)
  | chan {t : Ty ρ} {u : Ty σ} (h : Mirrored r t u) : Mirrored r (chan t) (chan u)
  | composite {ns : List ρ} {ms : List σ} (h : List.Forall₂ r ns ms) :
      Mirrored r (composite (ns.map reference)) (composite (ms.map reference))
  | reference {n : ρ} {m : σ} (h : r n m) : Mirrored r (reference n) (reference m)

namespace Mirrored

theorem mono {r' : ρ → σ → Prop} (h : t.Mirrored r u) (hr : ∀ n m, r n m → r' n m) :
    t.Mirrored r' u := by
  induction h with
  | untyped => exact .untyped
  | base label => exact .base label
  | chan _ ih => exact .chan ih
  | composite h => exact .composite (h.imp hr)
  | reference h => exact .reference (hr _ _ h)

theorem isUntyped_eq (h : t.Mirrored r u) : u.isUntyped = t.isUntyped := by cases h <;> rfl

theorem arity_eq (h : t.Mirrored r u) : u.arity = t.arity := by
  cases h with
  | composite h =>
    rw [arity, arity, List.length_map, List.length_map]
    exact h.length_eq.symm
  | _ => rfl

theorem elements (h : t.Mirrored r u) : List.Forall₂ (Mirrored r) t.elements u.elements := by
  cases h with
  | composite h =>
    rw [Ty.elements, Ty.elements, List.forall₂_map_left_iff, List.forall₂_map_right_iff]
    exact h.imp fun _ _ => .reference
  | untyped => exact .cons .untyped .nil
  | base label => exact .cons (.base label) .nil
  | chan h => exact .cons (.chan h) .nil
  | reference h => exact .cons (.reference h) .nil

theorem exists_reference {n : ρ} (h : (Ty.reference n).Mirrored r u) :
    ∃ m, u = .reference m ∧ r n m := by
  cases h with
  | reference h => exact ⟨_, rfl, h⟩

theorem ne_reference (h : t.Mirrored r u) (ht : ∀ n, t ≠ .reference n) (m : σ) :
    u ≠ .reference m := by
  cases h with
  | reference => exact absurd rfl (ht _)
  | _ => simp

/-- What is put for targets that are related makes the same of both types. -/
theorem bind_eq (h : t.Mirrored r u) {f : ρ → Ty τ} {g : σ → Ty τ}
    (hfg : ∀ n m, r n m → g m = f n) : u.bind g = t.bind f := by
  induction h with
  | untyped => rw [bind, bind]
  | base label => rw [bind, bind]
  | chan _ ih => rw [bind, bind, ih]
  | reference h => rw [bind, bind, hfg _ _ h]
  | composite h =>
    rw [bind, bind]
    congr 1
    induction h with
    | nil => rfl
    | cons hn _ ih => simp only [List.map_cons, bind_reference, hfg _ _ hn, ih]

end Mirrored

end Ty

namespace Store

variable {f : Name → Name} {s t : Store} {n m r : Name} {x x' y y' : Ty Name}

/-- References lead from one name to another, over any number of names. -/
def Reaches (s : Store) : Name → Name → Prop :=
  Relation.ReflTransGen fun n m => s.type n = .reference m

theorem Reaches.terminal?_eq (h : s.Reaches n m) :
    s.terminal? (.reference n) = s.terminal? (.reference m) := by
  induction h with
  | refl => rfl
  | tail _ hstep ih => rw [ih, terminal?_reference hstep]

/-- A name is mirrored by the image of a name that references lead to from it. -/
def Image (s : Store) (f : Name → Name) (n m : Name) : Prop :=
  s.isLive n ∧ ∃ n', s.Reaches n n' ∧ f n' = m

theorem image_self (hn : s.isLive n) : s.Image f n (f n) := ⟨hn, n, .refl, rfl⟩

/-- References lead from every name to an end. -/
def Grounded (s : Store) : Prop := ∀ n, s.isLive n → ∃ r, s.terminal? (.reference n) = some r

/-- The second store knows of the images of names what the first one knows of the names. -/
structure Mirrors (f : Name → Name) (s t : Store) : Prop where
  isLive : ∀ n, s.isLive n → t.isLive (f n)
  label : ∀ n, s.isLive n → t.label (f n) = s.label n
  isConstant : ∀ n, s.isLive n → t.isConstant (f n) = s.isConstant n
  injective : Set.InjOn f {n | s.isLive n}
  type : ∀ n, s.isLive n → (s.type n).Mirrored (s.Image f) (t.type (f n))

theorem terminal?_of_ne_reference (hn : s.isLive n) (h : ∀ m, s.type n ≠ .reference m) :
    s.terminal? (.reference n) = some n := by
  obtain ⟨e, he⟩ := Option.isSome_iff_exists.mp hn
  rw [type_of_get? he] at h
  exact (Follows.step he (.done h)).terminal?_eq

theorem isLive_of_terminal? (h : s.terminal? (.reference n) = some r) : s.isLive n := by
  obtain ⟨ns, u, hfollows, -⟩ := terminal?_eq_some_iff.mp h
  cases hfollows with
  | done hne => exact absurd rfl (hne n)
  | step he _ => exact isLive_of_get? he

theorem type_ne_reference_of_terminal? (h : s.terminal? x = some r) (m : Name) :
    s.type r ≠ .reference m := by
  rw [(type_of_terminal? h).2]
  exact s.deref_ne_reference x m

namespace Mirrors

variable (h : Mirrors f s t)

include h

theorem terminal?_eq (hr : s.terminal? (.reference n) = some r) (hm : s.Image f n m) :
    t.terminal? (.reference m) = some (f r) := by
  obtain ⟨ns, u, hfollows, -⟩ := terminal?_eq_some_iff.mp hr
  induction ns generalizing n m with
  | nil =>
    cases hfollows with
    | done hne => exact absurd rfl (hne n)
  | cons c ns ih =>
    obtain ⟨hlive, n', hreach, rfl⟩ := hm
    have next : ∀ {a b}, s.type n = .reference a → s.Image f a b →
        t.terminal? (.reference b) = some (f r) := by
      intro a b ha hab
      refine ih (terminal?_reference ha ▸ hr) hab ?_
      cases hfollows with
      | step he rest =>
        rw [type_of_get? he] at ha
        exact ha ▸ rest
    -- If `m` is the image of a name further along the chain, it is one of the next name too.
    rcases hreach.cases_head with rfl | ⟨a, ha, hrest⟩
    · have htype := h.type n hlive
      by_cases href : ∃ a, s.type n = .reference a
      · obtain ⟨a, ha⟩ := href
        rw [ha] at htype
        obtain ⟨b, hb, himage⟩ := htype.exists_reference
        rw [terminal?_reference hb]
        exact next ha himage
      · push Not at href
        rw [terminal?_of_ne_reference hlive href, Option.some.injEq] at hr
        subst hr
        exact terminal?_of_ne_reference (h.isLive n hlive) (htype.ne_reference href)
    · have hlive' : s.isLive a := by
        cases hfollows with
        | step he rest =>
          rw [type_of_get? he] at ha
          rw [ha] at rest
          cases rest with
          | done hne => exact absurd rfl (hne a)
          | step he' _ => exact isLive_of_get? he'
      exact next ha ⟨hlive', n', hrest, rfl⟩

theorem terminal?_inj {a b : Name} (ha : s.terminal? x = some a) (hb : s.terminal? y = some b) :
    f a = f b ↔ a = b := by
  refine ⟨fun heq => h.injective ?_ ?_ heq, congrArg f⟩
  · exact (type_of_terminal? ha).1
  · exact (type_of_terminal? hb).1

theorem deref (g : s.Grounded) (hx : x.Mirrored (s.Image f) x') :
    (s.deref x).Mirrored (s.Image f) (t.deref x') := by
  cases hx with
  | untyped => simpa using .untyped
  | base label => simpa using .base label
  | chan hx => simpa using hx.chan
  | composite hx => simpa using .composite hx
  | @reference n m hm =>
    obtain ⟨r, hr⟩ := g n hm.1
    obtain ⟨hlive, htype⟩ := type_of_terminal? hr
    rw [← htype, ← (type_of_terminal? (h.terminal?_eq hr hm)).2]
    exact h.type r hlive

theorem outline_eq (g : s.Grounded) (hx : x.Mirrored (s.Image f) x') (k : Nat) :
    t.outline k x' = s.outline k x := by
  induction k generalizing x x' with
  | zero => rfl
  | succ k ih =>
    have hd := h.deref g hx
    rw [outline, outline]
    generalize s.deref x = d at hd
    generalize t.deref x' = d' at hd
    cases hd with
    | chan hd => exact congrArg Ty.chan (ih hd)
    | composite hd =>
      refine congrArg Ty.composite ?_
      induction hd with
      | nil => rfl
      | cons hn _ rest =>
        simp only [List.map_cons] at rest ⊢
        rw [ih (.reference hn), rest]
    | _ => rfl

theorem agree_iff (g : s.Grounded) (hx : x.Mirrored (s.Image f) x')
    (hy : y.Mirrored (s.Image f) y') : t.Agree x' y' ↔ s.Agree x y := by
  refine forall_congr' fun k => ?_
  rw [h.outline_eq g hx, h.outline_eq g hy]

theorem equal_eq (g : s.Grounded) (hx : x.Mirrored (s.Image f) x')
    (hy : y.Mirrored (s.Image f) y') : t.equal x' y' = s.equal x y := by
  rw [Bool.eq_iff_iff, equal_iff_agree, equal_iff_agree, h.agree_iff g hx hy]

/-- Ways down go on alike if the same ends of chains are above on them. -/
theorem unfoldBelow_eq (g : s.Grounded) {k : Nat} {above above' : List Name}
    (hk : s.size < k + above.length) (ha : s.Above above) (ha' : t.Above above')
    (hpass : s.PassesOn above) (hpass' : t.PassesOn above')
    (hends : ∀ c, s.isLive c → (∀ m, s.type c ≠ .reference m) → (f c ∈ above' ↔ c ∈ above))
    (hx : x.Mirrored (s.Image f) x') : t.unfoldBelow above' x' = s.unfoldBelow above x := by
  induction k generalizing above above' x x' with
  | zero =>
    have hlength := ha.length_le_size
    omega
  | succ k ih =>
    rw [t.unfoldBelow_eq_bind, s.unfoldBelow_eq_bind]
    refine hx.bind_eq fun n m hm => ?_
    obtain ⟨r, hr⟩ := g n hm.1
    obtain ⟨ns, u, hfollows, hlast⟩ := terminal?_eq_some_iff.mp hr
    obtain ⟨ms, u', hfollows', hlast'⟩ := terminal?_eq_some_iff.mp (h.terminal?_eq hr hm)
    obtain ⟨hlive, htype⟩ := hfollows.type_of_getLast? hlast
    obtain ⟨-, htype'⟩ := hfollows'.type_of_getLast? hlast'
    have hroot : ∀ m, s.type r ≠ .reference m := type_ne_reference_of_terminal? hr
    have hends' := hends r hlive hroot
    by_cases hmem : r ∈ above
    · rw [unfoldBelow_of_mem ha hfollows hlast hmem,
        unfoldBelow_of_mem ha' hfollows' hlast' (hends'.mpr hmem)]
    -- A chain that meets a name above ends above, so this one meets none.
    · have hns : ∀ c ∈ ns, c ∉ above := fun c hc hca =>
        hmem (hfollows.mem_of_getLast? hpass hlast hc hca)
      have hms : ∀ c ∈ ms, c ∉ above' := fun c hc hca =>
        hmem (hends'.mp (hfollows'.mem_of_getLast? hpass' hlast' hc hca))
      obtain ⟨hb, heq⟩ := unfoldBelow_of_follows ha hfollows hns
      obtain ⟨hb', heq'⟩ := unfoldBelow_of_follows ha' hfollows' hms
      rw [heq, heq', ← htype, ← htype']
      refine ih ?_ hb hb' (hfollows.passesOn.append hpass) (hfollows'.passesOn.append hpass')
        (fun c hc hne => ?_) (h.type r hlive)
      · have hpos : 0 < ns.length := List.length_pos_of_mem (List.mem_of_getLast? hlast)
        rw [List.length_append, List.length_reverse]
        omega
      · have hne' := (h.type c hc).ne_reference hne
        simp only [List.mem_append, List.mem_reverse, hends c hc hne,
          hfollows.mem_iff_of_getLast? hlast hne, hfollows'.mem_iff_of_getLast? hlast' hne']
        rw [h.injective.eq_iff hc hlive]

theorem unfold_eq (g : s.Grounded) (hx : x.Mirrored (s.Image f) x') : t.unfold x' = s.unfold x := by
  have hnone : ∀ {u : Store}, u.PassesOn [] := fun _ h => absurd h List.not_mem_nil
  exact h.unfoldBelow_eq g (Nat.lt_succ_self _) above_nil above_nil hnone hnone (by simp) hx

theorem renderType_eq (g : s.Grounded) (hx : x.Mirrored (s.Image f) x') :
    t.renderType x' = s.renderType x := by
  rw [renderType, renderType, h.unfold_eq g hx]

end Mirrors

/-- Mirroring is about what is known of the names that are mirrored. -/
theorem Mirrors.congr {u : Store} (h : Mirrors f s t)
    (hget : ∀ n, s.isLive n → u.get? (f n) = t.get? (f n)) : Mirrors f s u := by
  refine ⟨fun n hn => ?_, fun n hn => ?_, fun n hn => ?_, h.injective, fun n hn => ?_⟩
  · rw [Store.isLive, hget n hn]
    exact h.isLive n hn
  · rw [Store.label, hget n hn]
    exact h.label n hn
  · rw [Store.isConstant, hget n hn]
    exact h.isConstant n hn
  · rw [Store.type, Store.type, hget n hn]
    exact h.type n hn

theorem reaches_of_terminal? (h : s.terminal? (.reference n) = some r) : s.Reaches n r := by
  obtain ⟨ns, u, hfollows, hlast⟩ := terminal?_eq_some_iff.mp h
  induction ns generalizing n with
  | nil => cases hlast
  | cons c ns ih =>
    cases hfollows with
    | step he rest =>
      cases ns with
      | nil =>
        obtain rfl : c = r := by simpa using hlast
        exact .refl
      | cons a ns =>
        have hnext := (type_of_get? he).trans rest.eq_reference
        rw [rest.eq_reference] at rest
        exact .head hnext (ih (terminal?_reference hnext ▸ h) rest (by simpa using hlast))

section write

variable {s' t' : Store} (hlive : s.isLive n) (hne : ∀ m, s.type n ≠ .reference m)
  (hs : s.setType n x = ⟨s', none⟩)

include hne hs

/-- A name that refers to none may be given any type: what led somewhere leads there still. -/
theorem Reaches.of_setType {a b : Name} (h : s.Reaches a b) : s'.Reaches a b := by
  refine Relation.ReflTransGen.mono (fun a b hab => ?_) _ _ h
  rw [type_of_setType_ne hs]
  · exact hab
  · rintro rfl
    exact hne b hab

theorem Image.of_setType {a b : Name} (h : s.Image f a b) : s'.Image f a b := by
  obtain ⟨ha, a', hreach, rfl⟩ := h
  exact ⟨((retypes_of_setType hs).isLive_eq a).trans ha, a', hreach.of_setType hne hs, rfl⟩

include hlive

theorem Grounded.of_setType (g : s.Grounded)
    (hx : ∀ a, x = .reference a → ∃ r, s.terminal? (.reference a) = some r ∧ r ≠ n) :
    s'.Grounded := by
  have hlive' : ∀ {c}, s.isLive c → s'.isLive c := fun hc =>
    ((retypes_of_setType hs).isLive_eq _).trans hc
  have keeps : ∀ {c r}, s.terminal? (.reference c) = some r → r ≠ n →
      s'.terminal? (.reference c) = some r := by
    intro c r hr hrn
    rw [((reaches_of_terminal? hr).of_setType hne hs).terminal?_eq]
    refine terminal?_of_ne_reference (hlive' (type_of_terminal? hr).1) ?_
    rw [type_of_setType_ne hs hrn]
    exact type_ne_reference_of_terminal? hr
  intro c hc
  -- Only the chains that ended at `n` go on, and they do so along the new type.
  obtain ⟨r, hr⟩ := g c (((retypes_of_setType hs).isLive_eq c).symm.trans hc)
  by_cases hrn : r = n
  · subst hrn
    rw [((reaches_of_terminal? hr).of_setType hne hs).terminal?_eq]
    have htype := type_of_setType hs hlive
    by_cases href : ∃ a, x = .reference a
    · obtain ⟨a, rfl⟩ := href
      obtain ⟨r', hr', hne'⟩ := hx a rfl
      exact ⟨r', (terminal?_reference htype).trans (keeps hr' hne')⟩
    · push Not at href
      exact ⟨r, terminal?_of_ne_reference (hlive' hlive) (htype ▸ href)⟩
  · exact ⟨r, keeps hr hrn⟩

theorem Mirrors.of_setType (h : Mirrors f s t) (hx : x.Mirrored (s.Image f) x')
    (ht : t.setType (f n) x' = ⟨t', none⟩) : Mirrors f s' t' := by
  have hsr := retypes_of_setType hs
  have htr := retypes_of_setType ht
  have back : ∀ {c}, s'.isLive c → s.isLive c := fun hc => (hsr.isLive_eq _).symm.trans hc
  refine ⟨fun c hc => ?_, fun c hc => ?_, fun c hc => ?_, fun a ha b hb => ?_, fun c hc => ?_⟩
  · exact (htr.isLive_eq _).trans (h.isLive c (back hc))
  · rw [htr.label_eq, hsr.label_eq, h.label c (back hc)]
  · rw [htr.isConstant_eq, hsr.isConstant_eq, h.isConstant c (back hc)]
  · exact h.injective (back ha) (back hb)
  · have himage : ∀ a b, s.Image f a b → s'.Image f a b := fun a b hab => hab.of_setType hne hs
    by_cases hcn : c = n
    · subst hcn
      rw [type_of_setType hs hlive, type_of_setType ht (h.isLive c hlive)]
      exact hx.mono himage
    · have hfcn : f c ≠ f n := fun heq => hcn (h.injective (back hc) hlive heq)
      rw [type_of_setType_ne hs hcn, type_of_setType_ne ht hfcn]
      exact (h.type c (back hc)).mono himage

end write

end Store
end PiCalculus
