import Mathlib
import PiCalculus.Proofs.Binding.Scoped

/-! Which names the occurrences of a bound process are. An occurrence is the innermost name that is
introduced around it with its label; where there is none, it is no introduced name at all. The
channel of a receive counts as standing inside its own variables here. -/

namespace PiCalculus

namespace Scope

variable {ν : Type} {label : ν → String}

theorem label_of_lookup {scope : Scope ν} {n b : ν} (h : scope.lookup label n = some b) :
    label b = label n := by
  simpa using List.find?_some h

theorem lookup_congr (scope : Scope ν) {n m : ν} (h : label n = label m) :
    scope.lookup label n = scope.lookup label m := by
  rw [lookup, lookup, h]

theorem lookup_eq_none {scope : Scope ν} {n : ν} :
    scope.lookup label n = none ↔ label n ∉ scope.map label := by
  simp only [lookup, List.find?_eq_none, decide_eq_true_eq, List.mem_map, not_exists, not_and]

theorem lookup_append (inner outer : Scope ν) (n : ν) :
    Scope.lookup label (inner ++ outer) n =
      (inner.lookup label n).or (outer.lookup label n) := by
  simp [lookup]

theorem lookup_filter {scope : Scope ν} {hides : ν → Bool} {n : ν}
    (h : ∀ m ∈ scope, label m = label n → hides m) :
    Scope.lookup label (scope.filter hides) n = scope.lookup label n := by
  induction scope with
  | nil => rfl
  | cons a scope ih =>
    obtain ⟨ha, hs⟩ := List.forall_mem_cons.mp h
    have := ih hs
    by_cases hl : label a = label n <;> by_cases hk : hides a <;>
      simp_all [lookup]

theorem lookup_restrict (scope : Scope ν) (name n : ν) :
    (scope.restrict label name).lookup label n = Scope.lookup label (name :: scope) n := by
  by_cases h : label name = label n
  · simp [restrict, lookup, h]
  · have hf : Scope.lookup label (scope.filter fun m => label m ≠ label name) n =
        scope.lookup label n := lookup_filter (by grind)
    simpa [restrict, lookup, h] using hf

theorem lookup_receive (scope : Scope ν) (vars : List ν) (n : ν) :
    (scope.receive label vars).lookup label n =
      Scope.lookup label (vars.reverse ++ scope) n := by
  rw [receive, lookup_append, lookup_append]
  cases h : Scope.lookup label vars.reverse n with
  | some b => rfl
  | none =>
    rw [Option.none_or, Option.none_or]
    refine lookup_filter fun m _ hm => ?_
    have hn := lookup_eq_none.mp h
    simp only [List.map_reverse, List.mem_reverse, List.mem_map, not_exists, not_and] at hn
    simpa [hm] using fun v hv => Ne.symm (hn v hv)

theorem lookup_withChannel (scope : Scope ν) (chan n : ν) :
    (scope.withChannel label chan).lookup label n =
      (scope.lookup label n).or (if label chan = label n then some chan else none) := by
  unfold withChannel
  cases h : scope.lookup label chan with
  | some b =>
    by_cases hc : label chan = label n
    · have hn := lookup_congr scope hc
      simp [← hn, h]
    · simp [hc]
  | none =>
    by_cases hc : label chan = label n
    · have hn := lookup_congr scope hc
      rw [← hn, h]
      simp [lookup, hc]
    · simp [lookup, hc]

end Scope

namespace Process

variable {ν : Type} (label : ν → String) (introduced : ν → Prop)

/-- Whether an occurrence is the innermost name in force for its label, or with none in force no
introduced name. -/
def IsResolved (scope : Scope ν) (n : ν) : Prop :=
  scope.lookup label n = some n ∨ scope.lookup label n = none ∧ ¬ introduced n

@[grind =] def WellBound (scope : Scope ν) : Process ν → Prop
  | .nil => True
  | .send chan values => ∀ n ∈ chan :: values, IsResolved label introduced scope n
  | .receive chan vars body =>
    IsResolved label introduced (vars.reverse ++ scope) chan ∧
      body.WellBound (vars.reverse ++ scope)
  | .par ps => ∀ p ∈ ps, p.WellBound scope
  | .replicate body => body.WellBound scope
  | .restrict name body => body.WellBound (name :: scope)
termination_by p => sizeOf p

variable {label introduced}

namespace IsResolved

variable {inner scope : Scope ν} {name n : ν}

theorem leave (h : IsResolved label introduced (inner ++ name :: scope) n) (hne : n ≠ name) :
    IsResolved label introduced (inner ++ scope) n := by
  unfold IsResolved at h ⊢
  rw [Scope.lookup_append] at h ⊢
  cases hi : inner.lookup label n with
  | some b => simpa [hi] using h
  | none =>
    rw [hi, Option.none_or, Scope.lookup, List.find?_cons] at h
    rw [Option.none_or]
    split at h
    · simp [Ne.symm hne] at h
    · exact h

theorem mem (h : IsResolved label introduced scope n) (hn : introduced n) : n ∈ scope := by
  rcases h with h | ⟨-, h⟩
  · exact List.mem_of_find?_eq_some h
  · exact absurd hn h

theorem mem_of_label_mem (h : IsResolved label introduced (inner ++ scope) n)
    (hl : label n ∈ inner.map label) : n ∈ inner := by
  unfold IsResolved at h
  rw [Scope.lookup_append] at h
  cases hfound : inner.lookup label n with
  | none => exact absurd hl (Scope.lookup_eq_none.mp hfound)
  | some b =>
    have hb : b = n := by simpa [hfound] using h
    exact hb ▸ List.mem_of_find?_eq_some hfound

end IsResolved

theorem scoped_wellBound :
    Scoped (IsResolved label introduced) List.reverse (WellBound label introduced) where
  leave h hne := h.leave hne
  side_subset vars := List.reverse_subset.mpr (List.Subset.refl vars)
  nil scope := by simp [WellBound]
  send scope chan values := by rw [WellBound]
  receive scope chan vars body := by rw [WellBound]
  par scope ps := by rw [WellBound]
  replicate scope body := by rw [WellBound]
  restrict scope name body := by rw [WellBound]

/-- The names in force, as binding keeps them, beside those that the surrounding binders introduce. -/
def Tracks (label : ν → String) (introduced : ν → Prop) (kept scope : Scope ν) : Prop :=
  ∀ n, (∀ b, scope.lookup label n = some b → kept.lookup label n = some b) ∧
    (scope.lookup label n = none → ∀ b, kept.lookup label n = some b → ¬ introduced b)

theorem tracks_nil : Tracks label introduced [] [] := fun n => by simp [Scope.lookup]

theorem Tracks.isResolved {kept scope : Scope ν} (h : Tracks label introduced kept scope) {n : ν}
    (hn : label n ∉ scope.map label → ¬ introduced n) :
    IsResolved label introduced scope (kept.resolve label n) := by
  unfold Scope.resolve
  cases hs : scope.lookup label n with
  | some b =>
    rw [(h n).1 b hs, Option.getD_some]
    exact .inl (by rwa [Scope.lookup_congr _ (Scope.label_of_lookup hs)])
  | none =>
    cases hk : kept.lookup label n with
    | some b =>
      refine .inr ⟨?_, (h n).2 hs b hk⟩
      rwa [Option.getD_some, Scope.lookup_congr _ (Scope.label_of_lookup hk)]
    | none => exact .inr ⟨hs, hn (Scope.lookup_eq_none.mp hs)⟩

theorem Tracks.restrict {kept scope : Scope ν} (h : Tracks label introduced kept scope)
    (name : ν) : Tracks label introduced (kept.restrict label name) (name :: scope) := by
  intro n
  rw [Scope.lookup_restrict]
  by_cases hn : label name = label n
  · simp [Scope.lookup, hn]
  · simpa [Scope.lookup, hn] using h n

theorem Tracks.receive {kept scope : Scope ν} (h : Tracks label introduced kept scope)
    (vars : List ν) :
    Tracks label introduced (kept.receive label vars) (vars.reverse ++ scope) := by
  intro n
  rw [Scope.lookup_receive, Scope.lookup_append, Scope.lookup_append]
  cases hv : Scope.lookup label vars.reverse n with
  | some b => simp
  | none => simpa using h n

theorem Tracks.withChannel {kept scope : Scope ν} (h : Tracks label introduced kept scope)
    {chan : ν} (hc : label chan ∉ scope.map label → ¬ introduced chan) :
    Tracks label introduced (kept.withChannel label chan) scope := by
  intro n
  rw [Scope.lookup_withChannel]
  refine ⟨fun b hb => by simp [(h n).1 b hb], fun hn b hb => ?_⟩
  rcases Option.or_eq_some_iff.mp hb with hk | ⟨-, hk⟩
  · exact (h n).2 hn b hk
  · split at hk
    · next hl =>
      injection hk with hk
      exact hk ▸ hc (hl ▸ Scope.lookup_eq_none.mp hn)
    · cases hk

/-- Binding resolves all occurrences if no introduced name stands outside the scope of its label. -/
theorem bindIn_wellBound_of_unbound {p : Process ν} {kept scope : Scope ν}
    (h : Tracks label introduced kept scope)
    (hp : ∀ n ∈ p.unbound label, label n ∉ scope.map label → ¬ introduced n) :
    (p.bindIn label kept).WellBound label introduced scope := by
  induction p generalizing kept scope with
  | nil => simp [bindIn, WellBound]
  | send chan values =>
    simp only [unbound, List.forall_mem_cons] at hp
    simp only [bindIn, WellBound, List.forall_mem_cons, List.forall_mem_map]
    exact ⟨h.isResolved hp.1, fun n hn => h.isResolved (hp.2 n hn)⟩
  | receive chan vars body ih =>
    simp only [unbound, List.mem_filter, decide_eq_true_eq] at hp
    have hinner := h.receive vars
    have hout : ∀ n ∈ chan :: body.unbound label,
        label n ∉ (vars.reverse ++ scope).map label → ¬ introduced n := fun n hn hl => by
      rw [List.map_append, List.mem_append, not_or, List.map_reverse, List.mem_reverse] at hl
      exact hp n ⟨hn, hl.1⟩ hl.2
    rw [List.forall_mem_cons] at hout
    rw [bindIn, WellBound]
    exact ⟨hinner.isResolved hout.1, ih (hinner.withChannel hout.1) hout.2⟩
  | par ps ih =>
    rw [bindIn, WellBound]
    intro q hq
    obtain ⟨p, hm, rfl⟩ := List.mem_map.mp hq
    refine ih p hm h fun n hn => hp n ?_
    rw [unbound]
    exact List.mem_flatMap.mpr ⟨p, hm, hn⟩
  | replicate body ih =>
    rw [bindIn, WellBound]
    exact ih h (by simpa [unbound] using hp)
  | restrict name body ih =>
    simp only [unbound, List.mem_filter, decide_eq_true_eq] at hp
    rw [bindIn, WellBound]
    refine ih (h.restrict name) fun n hn hout => ?_
    rw [List.map_cons, List.mem_cons, not_or] at hout
    exact hp n ⟨hn, hout.1⟩ hout.2

theorem bindIn_wellBound {p : Process ν} {kept scope : Scope ν}
    (h : Tracks label introduced kept scope)
    (hp : ∀ n ∈ p.free label, label n ∉ scope.map label → ¬ introduced n) :
    (p.bindIn label kept).WellBound label introduced scope :=
  bindIn_wellBound_of_unbound h fun n hn => hp n (p.unbound_subset_free label hn)

theorem map_bindIn (label : ν → String) (scope : Scope ν) (p : Process ν) :
    (p.bindIn label scope).map label = p.map label := by
  have hr : ∀ (scope : Scope ν) n, label (scope.resolve label n) = label n := by
    intro scope n
    unfold Scope.resolve
    cases h : scope.lookup label n with
    | none => rfl
    | some b => exact Scope.label_of_lookup h
  induction p generalizing scope with
  | par ps ih =>
    simp only [bindIn, map, List.map_map, par.injEq]
    exact List.map_congr_left fun p hp => ih p hp scope
  | _ => simp_all [bindIn, map]

theorem map_bind (label : ν → String) (p : Process ν) : (p.bind label).map label = p.map label :=
  map_bindIn label [] p

theorem binders_bindIn (label : ν → String) (scope : Scope ν) (p : Process ν) :
    (p.bindIn label scope).binders = p.binders := by
  induction p generalizing scope with
  | par ps ih =>
    simp only [bindIn, binders, List.flatMap_map]
    exact List.flatMap_congr fun p hp => ih p hp scope
  | _ => simp_all [bindIn, binders]

theorem mem_occurrences_bindIn {label : ν → String} {scope : Scope ν} {p : Process ν} {n : ν}
    (hn : n ∈ (p.bindIn label scope).occurrences) : n ∈ scope ∨ n ∈ p.occurrences := by
  have resolved : ∀ {scope : Scope ν} {m : ν}, n = scope.resolve label m → n ∈ scope ∨ n = m := by
    intro scope m hm
    unfold Scope.resolve at hm
    cases h : scope.lookup label m with
    | none => exact .inr (by simpa [h] using hm)
    | some b => exact .inl (by simpa [h, hm] using List.mem_of_find?_eq_some h)
  induction p generalizing scope with
  | nil => simp [bindIn, occurrences] at hn
  | send chan values =>
    simp only [bindIn, occurrences, ← List.map_cons, List.mem_map] at hn
    obtain ⟨m, hm, heq⟩ := hn
    rw [occurrences]
    exact (resolved heq.symm).imp_right fun h : n = m => h.symm ▸ hm
  | receive chan vars body ih =>
    have inner : n ∈ scope.receive label vars → n ∈ scope ∨ n ∈ vars := by
      intro h
      simp only [Scope.receive, List.mem_append, List.mem_reverse, List.mem_filter] at h
      tauto
    -- The scope of the body may hold the channel too, which occurs in the prefix anyway.
    have channel : n ∈ (scope.receive label vars).withChannel label chan →
        n ∈ scope.receive label vars ∨ n = chan := by
      unfold Scope.withChannel
      split
      · exact .inl
      · exact fun h => (List.mem_cons.mp h).symm
    simp only [bindIn, occurrences, List.mem_cons, List.mem_append] at hn
    simp only [occurrences, List.mem_cons, List.mem_append]
    rcases hn with h | h | h
    · have := (resolved h).imp_left inner
      tauto
    · exact .inr (.inr (.inl h))
    · have := (ih h).imp_left fun h => (channel h).imp_left inner
      tauto
  | par ps ih =>
    simp only [bindIn, occurrences, List.flatMap_map] at hn
    obtain ⟨p, hp, hnp⟩ := List.mem_flatMap.mp hn
    rw [occurrences]
    exact (ih p hp hnp).imp_right fun h => List.mem_flatMap.mpr ⟨p, hp, h⟩
  | replicate body ih =>
    rw [bindIn, occurrences] at hn
    rw [occurrences]
    exact ih hn
  | restrict name body ih =>
    rw [bindIn, occurrences, List.mem_cons] at hn
    rw [occurrences, List.mem_cons]
    rcases hn with h | h
    · exact .inr (.inl h)
    · rcases ih h with hs | hb
      · rcases List.mem_cons.mp hs with rfl | hs
        · exact .inr (.inl rfl)
        · exact .inl (List.mem_filter.mp hs).1
      · exact .inr (.inr hb)

namespace WellBound

variable {scope : Scope ν} {p q : Process ν} {path : List Nat}

theorem leads (h : Leads path p q) (hw : p.WellBound label introduced scope)
    (hd : (scope ++ p.binders).Nodup) :
    ∃ inner, q.WellBound label introduced inner ∧ (inner ++ q.binders).Nodup := by
  obtain ⟨inner, outside, hq, hperm⟩ := scoped_wellBound.leads h hw
  exact ⟨inner, hq, (hperm.nodup_iff.mpr hd).of_append_left⟩

/-- An occurrence with the label of an inner one of the names in force is such a name itself, or one
that is introduced still further in. -/
theorem mem_of_label_mem {inner outer : Scope ν}
    (h : p.WellBound label introduced (inner ++ outer)) {n : ν} (hn : n ∈ p.prefixNames)
    (hl : label n ∈ inner.map label) : n ∈ inner ∨ n ∈ p.binders := by
  induction p generalizing inner with
  | nil => simp [prefixNames] at hn
  | send chan values =>
    rw [WellBound] at h
    rw [prefixNames] at hn
    exact .inl ((h n hn).mem_of_label_mem hl)
  | receive chan vars body ih =>
    rw [WellBound, ← List.append_assoc] at h
    simp only [prefixNames, List.mem_cons, List.mem_append] at hn
    -- The variables join the inner names, so that the outer ones stay as they are.
    have hl' : label n ∈ (vars.reverse ++ inner).map label := by
      rw [List.map_append]
      exact List.mem_append_right _ hl
    have key : n ∈ vars.reverse ++ inner ∨ n ∈ body.binders ∨ n ∈ vars := by
      rcases hn with rfl | hn | hn
      · exact .inl (h.1.mem_of_label_mem hl')
      · exact .inr (.inr hn)
      · exact (ih h.2 hn hl').imp_right .inl
    simp only [List.mem_append, List.mem_reverse] at key
    simp only [binders, List.mem_append]
    tauto
  | par ps ih =>
    rw [WellBound] at h
    rw [prefixNames] at hn
    obtain ⟨p, hp, hnp⟩ := List.mem_flatMap.mp hn
    rw [binders]
    exact (ih p hp (h p hp) hnp hl).imp_right fun hb => List.mem_flatMap.mpr ⟨p, hp, hb⟩
  | replicate body ih =>
    rw [WellBound] at h
    rw [prefixNames] at hn
    rw [binders]
    exact ih h hn hl
  | restrict name body ih =>
    rw [WellBound, ← List.cons_append] at h
    rw [prefixNames] at hn
    rw [binders, List.mem_cons]
    rcases ih h hn (by simp [hl]) with hs | hb
    · exact (List.mem_cons.mp hs).symm.imp_right .inl
    · exact .inr (.inr hb)

end WellBound
end Process
end PiCalculus
