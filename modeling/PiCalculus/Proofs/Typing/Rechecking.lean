import Mathlib
import PiCalculus.Proofs.Typing.Mirroring

/-! Types found over types. A check that follows another one types the channels that are sent on once
more, after names that may refer to others by now: their types become shorter, and the store mirrors
the one that the first check left. -/

namespace PiCalculus

namespace Use

variable {ν : Type} [DecidableEq ν]

def sent? (n : ν) : Use ν → Option (List ν)
  | .sent chan values => if chan = n then some values else none
  | .received .. => none

/-- What the last of the sends on a channel sends, if there are any. -/
def lastSent (n : ν) : List (Use ν) → Option (List ν)
  | [] => none
  | use :: uses => (lastSent n uses).or (use.sent? n)

theorem eq_sent_of_sent? {use : Use ν} {n : ν} {values : List ν} (h : use.sent? n = some values) :
    use = .sent n values := by
  cases use with
  | sent chan ns =>
    rw [sent?, Option.ite_none_right_eq_some, Option.some.injEq] at h
    rw [h.1, h.2]
  | received chan ns => cases h

theorem mem_of_lastSent {uses : List (Use ν)} {n : ν} {values : List ν}
    (h : lastSent n uses = some values) : .sent n values ∈ uses := by
  induction uses with
  | nil => cases h
  | cons use uses ih =>
    rcases Option.or_eq_some_iff.mp h with hlast | ⟨-, hsent⟩
    · exact List.mem_cons_of_mem _ (ih hlast)
    · rw [eq_sent_of_sent? hsent]
      exact List.mem_cons_self

end Use

namespace Store

open Process

variable {f : Name → Name} {s t u : Store} {n : Name} {p : Process Name} {uses : List (Use Name)}

theorem inferred_of_known {use : Use Name} (h : use.sent? use.chan = none)
    (hknown : s.type use.chan ≠ .untyped) : s.inferred use = s.type use.chan := by
  cases use with
  | sent chan ns => simp [Use.sent?, Use.chan] at h
  | received chan ns => exact if_neg (mt isUntyped_iff.mp hknown)

theorem element_congr (h : t.target = s.target) (ns : List Name) : t.element ns = s.element ns := by
  rw [element_eq, element_eq, h]

/-- What inference finds: a channel that is sent on carries what the last send sends, and otherwise
a type that is known stays. -/
structure Infers (s t : Store) (uses : List (Use Name)) : Prop where
  retypes : s.Retypes t
  target : t.target = s.target
  sent : ∀ n values, Use.lastSent n uses = some values → t.type n = .chan (s.element values)
  kept : ∀ n, Use.lastSent n uses = none →
    s.type n ≠ .untyped ∨ (∀ use ∈ uses, use.chan ≠ n) → t.type n = s.type n
  known : ∀ use ∈ uses, t.type use.chan ≠ .untyped

theorem Infers.cons {use : Use Name} (hne : ∀ m, s.type use.chan ≠ .reference m)
    (hsu : s.Retypes u) (hu : ∀ n, u.type n = if n = use.chan then s.inferred use else s.type n)
    (h : u.Infers t uses) : s.Infers t (use :: uses) := by
  have hown : u.type use.chan = s.inferred use := by rw [hu, if_pos rfl]
  have hother : ∀ {n}, n ≠ use.chan → u.type n = s.type n := fun hn => by rw [hu, if_neg hn]
  have hknown : u.type use.chan ≠ .untyped := by
    rw [hown]
    exact inferred_ne_untyped
  -- A channel that gets a type of its own stays the end of its chain.
  have htarget : u.target = s.target := by
    funext n
    by_cases hn : n = use.chan
    · have hne' : ∀ m, u.type n ≠ .reference m := fun m => by
        rw [hn, hown]
        exact inferred_ne_reference hne m
      rw [target_of_ne_reference hne', target_of_ne_reference (hn ▸ hne)]
    · rw [Store.target, Store.target, hother hn]
  refine ⟨hsu.trans h.retypes, h.target.trans htarget, fun n values hn => ?_, fun n hn hkeep => ?_,
    List.forall_mem_cons.mpr ⟨?_, h.known⟩⟩
  · rcases Option.or_eq_some_iff.mp hn with hlast | ⟨hnone, hsent⟩
    · rw [h.sent n values hlast, element_congr htarget]
    · obtain rfl := Use.eq_sent_of_sent? hsent
      exact (h.kept n hnone (.inl hknown)).trans hown
  · obtain ⟨hnone, hsent⟩ := Option.or_eq_none_iff.mp hn
    by_cases hchan : n = use.chan
    · subst hchan
      have hbefore := hkeep.resolve_right fun hunused => hunused use List.mem_cons_self rfl
      rw [h.kept _ hnone (.inl hknown), hown, inferred_of_known hsent hbefore]
    · rw [← hother hchan] at hkeep ⊢
      refine h.kept n hnone (hkeep.imp_right fun hunused use' huse' => ?_)
      exact hunused use' (List.mem_cons_of_mem _ huse')
  · cases hlast : Use.lastSent use.chan uses with
    | some values =>
      rw [h.sent _ values hlast]
      simp
    | none => rwa [h.kept _ hlast (.inl hknown)]

theorem Inferrable.infers (h : s.Inferrable p) (hsub : ∀ use ∈ uses, use ∈ p.uses) :
    ∃ t, s.writeEach Store.inferUse uses = ⟨t, none⟩ ∧ t.Inferrable p ∧ s.Infers t uses := by
  induction uses generalizing s with
  | nil =>
    refine ⟨s, rfl, h, .refl s, rfl, fun n values hn => ?_, fun _ _ _ => rfl, by simp⟩
    cases hn
  | cons use uses ih =>
    obtain ⟨huse, hsub⟩ := List.forall_mem_cons.mp hsub
    obtain ⟨u, hfirst, hretypes, hu, htype⟩ := h.inferUse huse
    obtain ⟨t, hrest, ht, hinfers⟩ := ih hu hsub
    refine ⟨t, ?_, ht, hinfers.cons (h.direct use huse) hretypes htype⟩
    rw [writeEach, hfirst]
    exact hrest

/-- Channels as inference types them when no name refers to another one. -/
structure Typed (s : Store) (p : Process Name) : Prop where
  sent : ∀ n values, Use.lastSent n p.uses = some values → s.type n = .chan (.carrying values)
  known : ∀ use ∈ p.uses, s.type use.chan ≠ .untyped
  direct : ∀ use ∈ p.uses, ∀ m, s.type use.chan ≠ .reference m

theorem Typed.of_fills (h : s.Typed p) (hf : s.Fills t) : t.Typed p := by
  have hkeeps : ∀ use ∈ p.uses, t.type use.chan = s.type use.chan := fun use huse =>
    hf.keeps _ (h.known use huse)
  refine ⟨fun n values hn => ?_, fun use huse => ?_, fun use huse m => ?_⟩
  · rw [hf.keeps n (by rw [h.sent n values hn]; simp), h.sent n values hn]
  · rw [hkeeps use huse]
    exact h.known use huse
  · rw [hkeeps use huse]
    exact h.direct use huse m

/-- A store without references has types that inference finds as they are. -/
theorem Inferring.infers (h : s.Inferring) (writable : ∀ n, s.isConstant n = false)
    (live : ∀ n ∈ p.occurrences, s.isLive n) :
    ∃ t, s.infer p = ⟨t, none⟩ ∧ s.Retypes t ∧ t.Sound ∧ t.Typed p := by
  have hs : s.Inferrable p := ⟨writable, live, fun use _ => h.direct use.chan⟩
  obtain ⟨t, ht, hinferrable, hinfers⟩ := hs.infers fun use huse => huse
  obtain ⟨hinferring, hretypes⟩ := h.writeEach ht fun use huse n hn =>
    live n (names_subset_occurrences huse hn)
  have hgrounded : t.Grounded := fun n hn =>
    ⟨n, terminal?_of_ne_reference hn (hinferring.direct n)⟩
  refine ⟨t, ht, hretypes, ⟨hinferrable.writable, hinferring.shallow, hgrounded⟩,
    fun n values hn => ?_, hinfers.known, hinferrable.direct⟩
  rw [hinfers.sent n values hn, h.element_eq]

theorem Sound.mirrors (h : s.Sound) : Mirrors id s s := by
  refine ⟨fun _ hn => hn, fun _ _ => rfl, fun _ _ => rfl, Set.injOn_id _, fun n hn => ?_⟩
  have hself : ∀ {ns : List Name}, (∀ n ∈ ns, s.isLive n) → List.Forall₂ (s.Image id) ns ns := by
    intro ns hns
    exact List.forall₂_same.mpr fun n hn => image_self (hns n hn)
  have htype := h.shallow n
  rw [id]
  generalize s.type n = x at htype ⊢
  cases htype with
  | untyped => exact .untyped
  | base label => exact .base label
  | chan hns => exact .chan (mirrored_carrying (hself hns))
  | reference hm => exact .reference (image_self hm)

/-- The name that stands for a name in the mirroring store is where its references lead. -/
theorem Mirrors.image_target_of_isLive (h : Mirrors id s u) (hn : s.isLive n) :
    s.Image id n (u.target n) := by
  have htarget := h.image_target hn
  by_cases href : ∃ m, s.type n = .reference m
  · obtain ⟨m, hm⟩ := href
    rw [target_of_reference hm] at htarget
    obtain ⟨-, m', hreach, hm'⟩ := htarget
    exact ⟨hn, m', .head hm hreach, hm'⟩
  · push Not at href
    rwa [target_of_ne_reference href] at htarget

/-- A store that mirrors one with types goes on to mirror it when types are inferred again. -/
theorem Mirrors.infer_again (h : Mirrors id s u) (typed : s.Typed p)
    (writable : ∀ n, u.isConstant n = false) (live : ∀ n ∈ p.occurrences, s.isLive n) :
    ∃ t, u.infer p = ⟨t, none⟩ ∧ u.Retypes t ∧ Mirrors id s t := by
  have hused : ∀ use ∈ p.uses, ∀ n ∈ use.names, s.isLive n := fun use huse n hn =>
    live n (names_subset_occurrences huse hn)
  have hu : u.Inferrable p := by
    refine ⟨writable, fun n hn => h.isLive n (live n hn), fun use huse => ?_⟩
    have hlive := hused use huse _ use.chan_mem_names
    exact (h.type _ hlive).ne_reference (typed.direct use huse)
  obtain ⟨t, ht, -, hinfers⟩ := hu.infers fun use huse => huse
  have hretypes := hinfers.retypes
  refine ⟨t, ht, hretypes, fun n hn => ?_, fun n hn => ?_, fun n hn => ?_, Set.injOn_id _,
    fun n hn => ?_⟩
  · exact (hretypes.isLive_eq _).trans (h.isLive n hn)
  · rw [hretypes.label_eq, h.label n hn]
  · rw [hretypes.isConstant_eq, h.isConstant n hn]
  -- A channel gets its type from the last send, and otherwise it keeps the one that it has.
  · cases hlast : Use.lastSent n p.uses with
    | some values =>
      have hvalues : ∀ v ∈ values, s.isLive v := fun v hv =>
        hused _ (Use.mem_of_lastSent hlast) v (List.mem_cons_of_mem _ hv)
      rw [typed.sent n values hlast, id, hinfers.sent n values hlast, element_eq]
      refine .chan (mirrored_carrying ?_)
      rw [List.forall₂_map_right_iff, List.forall₂_same]
      exact fun v hv => h.image_target_of_isLive (hvalues v hv)
    | none =>
      have hkeep : u.type n ≠ .untyped ∨ ∀ use ∈ p.uses, use.chan ≠ n := by
        by_cases huse : ∃ use ∈ p.uses, use.chan = n
        · obtain ⟨use, huse, rfl⟩ := huse
          have hknown := typed.known use huse
          rw [ne_eq, ← isUntyped_iff] at hknown ⊢
          exact .inl ((h.type _ hn).isUntyped_eq ▸ hknown)
        · push Not at huse
          exact .inr huse
      rw [id, hinfers.kept n hlast hkeep]
      exact h.type n hn

theorem inferAndUnify_eq (h : s.infer p = ⟨t, none⟩) : s.inferAndUnify p = t.unify p := by
  rw [inferAndUnify, h]

theorem Mirrors.inferAndUnify (h : Mirrors f s t) (hs : s.Inferring)
    (writable : ∀ n, s.isConstant n = false) (live : ∀ n ∈ p.occurrences, s.isLive n) :
    Written.Mirrors f (s.inferAndUnify p) (t.inferAndUnify (p.map f)) := by
  obtain ⟨u, hu, hretypes, hsound, -⟩ := hs.infers writable live
  have hinfer := h.infer (p := p) ⟨writable, live, fun use _ => hs.direct use.chan⟩
  rw [hu] at hinfer
  obtain ⟨v, e, hv⟩ : ∃ v e, t.infer (p.map f) = ⟨v, e⟩ := ⟨_, _, rfl⟩
  rw [hv] at hinfer
  obtain rfl : e = none := Option.map_eq_none_iff.mp hinfer.failure
  rw [inferAndUnify_eq hu, inferAndUnify_eq hv]
  exact hinfer.store.unify hsound fun n hn => (hretypes.isLive_eq n).trans (live n hn)

/-- What a check leaves where nothing was typed, and what unification makes of it again. -/
structure Settles (s : Store) (p : Process Name) (w : Written) : Prop where
  retypes : s.Retypes w.store
  sound : w.store.Sound
  typed : w.store.Typed p
  again : (w.store.unify p).store = w.store
  failure_iff : (w.store.unify p).failure = none ↔ w.failure = none ∧ w.store.Consistent p

theorem Inferring.settles (h : s.Inferring) (writable : ∀ n, s.isConstant n = false)
    (live : ∀ n ∈ p.occurrences, s.isLive n) : s.Settles p (s.inferAndUnify p) := by
  obtain ⟨t, ht, hretypes, hsound, htyped⟩ := h.infers writable live
  have hrepeats := repeats_unify hsound fun n hn => (hretypes.isLive_eq n).trans (live n hn)
  have hfills := hrepeats.fills
  rw [inferAndUnify_eq ht]
  by_cases hnone : (t.unify p).failure = none
  · obtain ⟨hagain, hiff⟩ := hrepeats.later hnone _ hrepeats.sound (.refl _)
    refine ⟨hretypes.trans hfills.retypes, hrepeats.sound, htyped.of_fills hfills, hagain, ?_⟩
    rw [hiff, and_iff_right hnone]
  · obtain ⟨hagain, hfails⟩ := hrepeats.stuck hnone
    refine ⟨hretypes.trans hfills.retypes, hrepeats.sound, htyped.of_fills hfills, hagain, ?_⟩
    exact iff_of_false hfails fun h => hnone h.1

/-- Over a store that mirrors what a check left, a further check does what unification does there. -/
theorem Settles.check_again {w : Written} (h : s.Settles p w) (hu : Mirrors id w.store u)
    (writable : ∀ n, u.isConstant n = false) (live : ∀ n ∈ p.occurrences, s.isLive n) :
    Written.Mirrors id (w.store.unify p) (u.inferAndUnify p) := by
  have hlive : ∀ n ∈ p.occurrences, w.store.isLive n := fun n hn =>
    (h.retypes.isLive_eq n).trans (live n hn)
  obtain ⟨t, ht, -, hmirrors⟩ := hu.infer_again h.typed writable hlive
  have hunify := hmirrors.unify h.sound hlive
  rwa [map_id, ← inferAndUnify_eq ht] at hunify

end Store
end PiCalculus
