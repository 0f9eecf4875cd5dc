import Mathlib
import PiCalculus.Proofs.Reduction.Faithful
import PiCalculus.Proofs.Typing.Checking
import PiCalculus.Proofs.Typing.Judgement

/-! What a check is worth for a run. Where all sends on a channel agree and all receives fit, the
final types are a typing of the process, and as long as the steps of a run are steps of the calculus
the typing is kept. Then no communication pairs different numbers of names. -/

namespace PiCalculus

open Process

namespace Process

variable {ν μ : Type} {p : Process ν} {label : ν → String} {scope : Scope ν}

/-- The names of a node have their types under their labels, the last of equal labels counting. -/
theorem assign_map_label {mean : ν → μ} {Γ : String → μ} (xs : List ν) (n : ν) :
    assign Γ (xs.map label) (xs.map mean) (label n) =
      ((Scope.lookup label xs.reverse n).map mean).getD (Γ (label n)) := by
  induction xs generalizing Γ with
  | nil => simp [assign, Scope.lookup]
  | cons x xs ih =>
    rw [List.map_cons, List.map_cons, assign, ih, List.reverse_cons, Scope.lookup_append]
    cases Scope.lookup label xs.reverse n with
    | some b => rfl
    | none =>
      by_cases hx : label x = label n
      · simp [Scope.lookup, hx]
      · simp [Scope.lookup, hx, Function.update_of_ne (Ne.symm hx)]

theorem assign_inForce {mean : ν → μ} {Γ : String → μ}
    (inForce : ∀ n b, scope.lookup label n = some b → Γ (label n) = mean b) (xs : List ν) (n b : ν)
    (hb : Scope.lookup label (xs.reverse ++ scope) n = some b) :
    assign Γ (xs.map label) (xs.map mean) (label n) = mean b := by
  rw [assign_map_label]
  rw [Scope.lookup_append] at hb
  cases hl : Scope.lookup label xs.reverse n with
  | some c =>
    obtain rfl : c = b := by simpa [hl] using hb
    rfl
  | none =>
    rw [hl, Option.none_or] at hb
    exact inForce n b hb

/-- If every use fits the types of its names, the process is well-typed under the labels by which
its names are resolved. -/
theorem Resolved.wellTyped {carries : μ → List μ → Prop} {mean : ν → μ} {Γ : String → μ}
    (h : p.Resolved label scope)
    (sent : ∀ chan values, .sent chan values ∈ p.uses → carries (mean chan) (values.map mean))
    (received : ∀ chan vars, .received chan vars ∈ p.uses → carries (mean chan) (vars.map mean))
    (inForce : ∀ n b, scope.lookup label n = some b → Γ (label n) = mean b) :
    (p.map label).WellTyped carries Γ := by
  induction p generalizing scope Γ with
  | nil =>
    rw [Process.map, WellTyped]
    trivial
  | send chan values =>
    rw [Resolved] at h
    have hmean : ∀ n ∈ chan :: values, Γ (label n) = mean n := fun n hn => inForce n n (h n hn)
    have hvalues : (values.map label).map Γ = values.map mean := by
      rw [List.map_map]
      exact List.map_congr_left fun v hv => hmean v (List.mem_cons_of_mem _ hv)
    rw [Process.map, WellTyped, hvalues, hmean chan List.mem_cons_self]
    exact sent chan values (by simp [uses])
  | receive chan vars body ih =>
    rw [Resolved] at h
    rw [Process.map, WellTyped, inForce chan chan h.1]
    refine ⟨vars.map mean, by simp, received chan vars (by simp [uses]), ih h.2 ?_ ?_ ?_⟩
    · exact fun c values hc => sent c values (by simp [uses, hc])
    · exact fun c xs hc => received c xs (by simp [uses, hc])
    · exact assign_inForce inForce vars
  | par ps ih =>
    rw [Resolved] at h
    rw [Process.map, WellTyped, List.forall_mem_map]
    intro p hp
    refine ih p hp (h p hp) ?_ ?_ inForce
    · exact fun c values hc => sent c values (by rw [uses]; exact List.mem_flatMap.mpr ⟨p, hp, hc⟩)
    · exact fun c xs hc => received c xs (by rw [uses]; exact List.mem_flatMap.mpr ⟨p, hp, hc⟩)
  | replicate body ih =>
    rw [Resolved] at h
    rw [uses] at sent received
    rw [Process.map, WellTyped]
    exact ih h sent received inForce
  | restrict name body ih =>
    rw [Resolved] at h
    rw [uses] at sent received
    rw [Process.map, WellTyped]
    exact ⟨mean name, ih h sent received (assign_inForce inForce [name])⟩

theorem vars_sublist_binders {i : ν × List ν} (h : i ∈ p.inputs) : i.2.Sublist p.binders := by
  induction p with
  | nil => simp [inputs] at h
  | send chan values => simp [inputs] at h
  | receive chan vars body ih =>
    rw [inputs] at h
    rw [binders]
    rcases List.mem_cons.mp h with rfl | h
    · exact List.sublist_append_left ..
    · exact (ih h).trans (List.sublist_append_right ..)
  | par ps ih =>
    rw [inputs] at h
    obtain ⟨p, hp, h⟩ := List.mem_flatMap.mp h
    exact (ih p hp h).trans (binders_sublist_par hp)
  | replicate body ih =>
    rw [inputs] at h
    rw [binders]
    exact ih h
  | restrict name body ih =>
    rw [inputs] at h
    rw [binders]
    exact (ih h).trans (List.sublist_cons_self ..)

end Process

namespace Store

variable {s : Store} {p : Process Name}

def meaning (s : Store) (n : Name) : Nat → Shape := fun k => s.outline k (.reference n)

/-- A channel with such a type carries names with such types. -/
def Carries (s : Store) (m : Nat → Shape) (ms : List (Nat → Shape)) : Prop :=
  ∃ chan ns, s.meaning chan = m ∧ s.deref (s.type chan) = .chan (.carrying ns) ∧
    ns.map s.meaning = ms

theorem meaning_eq_of_equal {n m : Name} (h : s.equal (s.type n) (s.type m) = true) :
    s.meaning n = s.meaning m := by
  have hn := Agree.of_deref_eq (s.deref_reference n)
  have hm := Agree.of_deref_eq (s.deref_reference m)
  exact funext (hn.trans ((equal_iff_agree.mp h).trans hm.symm))

theorem map_meaning_eq {ns ms : List Name}
    (h : List.Forall₂ (fun n m => s.meaning n = s.meaning m) ns ms) :
    ns.map s.meaning = ms.map s.meaning := by
  rwa [← List.forall₂_eq_eq_eq, List.forall₂_map_left_iff, List.forall₂_map_right_iff]

/-- A single name never stands for several ones. -/
theorem Shallow.not_agree_composite (hs : s.Shallow) {n : Name} {ts : List (Ty Name)} :
    ¬ s.Agree (.reference n) (.composite ts) := by
  intro h
  have hroots := agree_iff.mp h
  have hshallow := hs.deref (hs n)
  rw [deref_reference, deref_composite] at hroots
  cases hd : s.deref (s.type n) with
  | composite us =>
    rw [hd] at hshallow
    cases hshallow
  | _ =>
    rw [hd] at hroots
    cases hroots

theorem Shallow.map_meaning_eq_of_agree (hs : s.Shallow) {ns ms : List Name}
    (h : s.Agree (.carrying ns) (.carrying ms)) : ns.map s.meaning = ms.map s.meaning := by
  have shape : ∀ ns : List Name, (∃ n, ns = [n]) ∨
      Ty.carrying ns = .composite (ns.map .reference) := by
    intro ns
    rcases ns with _ | ⟨n, _ | ⟨m, ns⟩⟩ <;> simp [Ty.carrying]
  rcases shape ns with ⟨n, rfl⟩ | hns <;> rcases shape ms with ⟨m, rfl⟩ | hms
  · exact congrArg (fun f => [f]) (funext h)
  · rw [hms] at h
    exact absurd h hs.not_agree_composite
  · rw [hns] at h
    exact absurd h.symm hs.not_agree_composite
  · have hroots := agree_iff.mp h
    rw [hns, hms, deref_composite, deref_composite] at hroots
    cases hroots with
    | composite hall =>
      rw [List.forall₂_map_left_iff, List.forall₂_map_right_iff] at hall
      exact map_meaning_eq (hall.imp fun _ _ hagree => funext hagree)

theorem Shallow.determines (hs : s.Shallow) : Determines s.Carries := by
  rintro m _ _ ⟨c, ns, rfl, hc, rfl⟩ ⟨d, ms, hmean, hd, rfl⟩
  have hagree : s.Agree (.reference c) (.reference d) := congrFun hmean.symm
  have hroots := agree_iff.mp hagree
  rw [deref_reference, deref_reference, hc, hd] at hroots
  cases hroots with
  | chan h => exact hs.map_meaning_eq_of_agree h

/-- A failure is that of the step that is due when the run has come to its end. -/
theorem reduceFrom_failure {taken n : Nat} {e : Error}
    (h : (s.reduceFrom taken (n + 1) p).failure = some e) :
    (s.reduceFrom taken n p).store.reduceOnce (s.reduceFrom taken n p).process = .error e := by
  induction n generalizing taken s p with
  | zero =>
    cases hq : s.reduceOnce p with
    | error e' => simpa [reduceFrom, hq] using h
    | ok q => cases q <;> simp [reduceFrom, hq] at h
  | succ n ih =>
    cases hq : s.reduceOnce p with
    | error e' => simpa [reduceFrom, hq] using h
    | ok q =>
      cases q with
      | none => simp [reduceFrom, hq] at h
      | some q =>
        rw [reduceFrom, hq] at h ⊢
        exact ih h

theorem reduce_failure {n : Nat} {e : Error} (h : (s.reduce p (n + 1)).failure = some e) :
    (s.reduce p n).store.reduceOnce (s.reduce p n).process = .error e :=
  reduceFrom_failure h

/-- A communication fails only if different numbers of names are sent and received. -/
theorem of_reduceOnce_error {e : Error} (h : s.reduceOnce p = .error e) :
    ∃ path ps r, s.redex? p = some (path, ps, r) ∧ r.values.length ≠ r.vars.length := by
  unfold reduceOnce at h
  split at h
  · cases h
  · next path ps r hr =>
    refine ⟨path, ps, r, hr, fun even => ?_⟩
    rw [substitute, if_pos (by simpa using even)] at h
    cases h

/-- Whether the step that is due is one of the calculus, where all variables of a receive have
different labels. -/
structure KeepsToCalculus (s : Store) (p : Process Name) : Prop where
  distinct : ∀ i ∈ (p.map s.label).inputs, i.2.Nodup
  step : ∀ q, s.reduceOnce p = .ok (some q) →
    s.StepsTo p q.store (q.process.simplify q.store.label)

theorem Apart.keepsToCalculus (h : s.Apart p) : s.KeepsToCalculus p := by
  refine ⟨fun i hi => ?_, fun q hq => (h.reduceOnce hq).2⟩
  rw [inputs_map] at hi
  obtain ⟨j, hj, rfl⟩ := List.mem_map.mp hi
  exact h.distinct.sublist ((vars_sublist_binders hj).map s.label)

variable {μ : Type} {carries : μ → List μ → Prop} {Γ : String → μ}

theorem even_of_wellTyped (determines : Determines carries)
    (h : (p.map s.label).WellTyped carries Γ) {path : List Nat} {ps : List (Process Name)}
    {r : Redex Name} (hr : s.redex? p = some (path, ps, r)) : r.values.length = r.vars.length := by
  obtain ⟨hleads, hsend, other, hreceive, hchan⟩ := of_redex? hr
  have hleads' := hleads.map s.label
  rw [Process.map] at hleads'
  obtain ⟨Δ, hpar, -⟩ := h.leads hleads'
  have hsend' : (ps.map (Process.map s.label))[r.sender]? =
      some (.send (s.label r.chan) (r.values.map s.label)) := by
    rw [List.getElem?_map, hsend, Option.map_some, Process.map]
  have hreceive' : (ps.map (Process.map s.label))[r.receiver]? =
      some (.receive (s.label other) (r.vars.map s.label) (r.body.map s.label)) := by
    rw [List.getElem?_map, hreceive, Option.map_some, Process.map]
  have heven := (hpar.communication determines hsend' hreceive' (by rw [hchan])).1
  simpa using heven

theorem wellTyped_run [Nonempty μ] (determines : Determines carries)
    (h : (p.map s.label).WellTyped carries Γ) (n : Nat)
    (keeps : ∀ m < n, (s.reduce p m).store.KeepsToCalculus (s.reduce p m).process) :
    ((s.reduce p n).process.map (s.reduce p n).store.label).WellTyped carries Γ := by
  induction n with
  | zero => exact h
  | succ n ih =>
    have hbefore := ih fun m hm => keeps m (Nat.lt_succ_of_lt hm)
    rcases s.reduce_succ p n with ⟨q, hq, -, -, hstore, hprocess⟩ | ⟨-, hstore, hprocess⟩
    · obtain ⟨hdistinct, hstep⟩ := keeps n (Nat.lt_succ_self n)
      rw [hstore, hprocess]
      obtain ⟨-, -, -, hcommunicates, htidied⟩ := hstep q hq
      exact (htidied.wellTyped_iff Γ).mp (hcommunicates.wellTyped determines hbefore hdistinct)
    · rwa [hstore, hprocess]

/-- A well-typed process does not go wrong in a run that keeps to the calculus. -/
theorem failure_eq_none [Nonempty μ] (determines : Determines carries)
    (h : (p.map s.label).WellTyped carries Γ) (n : Nat)
    (keeps : ∀ m < n, (s.reduce p m).store.KeepsToCalculus (s.reduce p m).process) :
    (s.reduce p n).failure = none := by
  cases n with
  | zero => rfl
  | succ n =>
    refine Option.eq_none_iff_forall_ne_some.mpr fun e he => ?_
    obtain ⟨path, ps, r, hr, huneven⟩ := of_reduceOnce_error (reduce_failure he)
    have htyped := wellTyped_run determines h n fun m hm => keeps m (Nat.lt_succ_of_lt hm)
    exact huneven (even_of_wellTyped determines htyped hr)

end Store

def Process.sends {ν : Type} (p : Process ν) : List (ν × List ν) :=
  p.uses.filterMap fun
    | .sent chan values => some (chan, values)
    | .received .. => none

theorem Process.mem_sends {ν : Type} {p : Process ν} {chan : ν} {values : List ν} :
    (chan, values) ∈ p.sends ↔ .sent chan values ∈ p.uses := by
  rw [sends, List.mem_filterMap]
  constructor
  · rintro ⟨use, huse, heq⟩
    cases use with
    | sent c vs =>
      cases heq
      exact huse
    | received c vs => cases heq
  · exact fun h => ⟨_, h, rfl⟩

namespace Program

/-- The program after a check, with the types that were found. -/
def checked (p : Program) : Program := (p.run .check).1

/-- On one channel as many values are always sent, and they have the same types. -/
def SendsAgree (p : Program) : Prop :=
  ∀ u ∈ p.process.sends, ∀ v ∈ p.process.sends, u.1 = v.1 → u.2.length = v.2.length ∧
    ∀ q ∈ u.2.zip v.2, p.store.equal (p.store.type q.1) (p.store.type q.2) = true

/-- What a channel carries has the types of the variables that receive it. -/
def ReceivesFit (p : Program) : Prop :=
  ∀ r ∈ p.process.receives, ∀ q ∈ (p.store.carried r.1).zip r.2,
    p.store.equal q.1 (p.store.type q.2) = true

instance (p : Program) : Decidable p.SendsAgree :=
  inferInstanceAs (Decidable (∀ u ∈ p.process.sends, ∀ v ∈ p.process.sends, u.1 = v.1 →
    u.2.length = v.2.length ∧
      ∀ q ∈ u.2.zip v.2, p.store.equal (p.store.type q.1) (p.store.type q.2) = true))

instance (p : Program) : Decidable p.ReceivesFit :=
  inferInstanceAs (Decidable (∀ r ∈ p.process.receives, ∀ q ∈ (p.store.carried r.1).zip r.2,
    p.store.equal q.1 (p.store.type q.2) = true))

variable {source : String} {p : Program}

theorem checked_eq (parsed : Program.parse source = .ok p)
    (ok : (p.run .check).2.result = .ok .none) :
    p.checked = ⟨p.bound, (p.run .check).2.store⟩ := by
  obtain ⟨inferred, hchecks⟩ := checks parsed ok
  have hchecked : p.checked = ⟨p.bound, (p.run .check).2.store.retain p.bound.occurrences⟩ := rfl
  rw [hchecked, Store.retain_eq_self]
  intro n hn
  by_contra hout
  rw [hchecks.retypes.isLive_eq, Store.isLive, held, Store.get?_retain, if_neg hout] at hn
  cases hn

theorem label_checked (parsed : Program.parse source = .ok p)
    (ok : (p.run .check).2.result = .ok .none) {n : Name} (hn : n ∈ p.bound.occurrences) :
    p.checked.store.label n = p.store.label n := by
  obtain ⟨inferred, hchecks⟩ := checks parsed ok
  rw [checked_eq parsed ok, hchecks.retypes.label_eq, Store.label, held_get? hn, Store.label]

theorem carries_sent (parsed : Program.parse source = .ok p)
    (ok : (p.run .check).2.result = .ok .none) (sends : p.checked.SendsAgree) (chan : Name)
    (values : List Name) (huse : .sent chan values ∈ p.checked.process.uses) :
    p.checked.store.Carries (p.checked.store.meaning chan)
      (values.map p.checked.store.meaning) := by
  obtain ⟨inferred, hchecks⟩ := checks parsed ok
  rw [checked_eq parsed ok] at sends huse ⊢
  generalize (p.run .check).2.store = final at hchecks sends huse ⊢
  -- Inference has typed the channel after one of the sends on it, and this one agrees with that.
  obtain ⟨others, hothers, htype⟩ := (inferring_held parsed).exists_sent hchecks.infers
    (isLive_held_of_use parsed) ⟨values, huse⟩
  have hfinal := hchecks.fills.keeps chan (by simp [htype])
  obtain ⟨hlen, hequal⟩ := sends _ (mem_sends.mpr hothers) _ (mem_sends.mpr huse) rfl
  refine ⟨chan, others, rfl, ?_, Store.map_meaning_eq (List.forall₂_iff_zip.mpr ⟨hlen, ?_⟩)⟩
  · rw [hfinal, htype, Store.deref_chan]
  · intro n m hmem
    exact Store.meaning_eq_of_equal (hequal (n, m) hmem)

theorem carries_received (parsed : Program.parse source = .ok p)
    (ok : (p.run .check).2.result = .ok .none) (receives : p.checked.ReceivesFit) (chan : Name)
    (vars : List Name) (huse : .received chan vars ∈ p.checked.process.uses) :
    p.checked.store.Carries (p.checked.store.meaning chan) (vars.map p.checked.store.meaning) := by
  obtain ⟨inferred, hchecks⟩ := checks parsed ok
  rw [checked_eq parsed ok] at receives huse ⊢
  generalize (p.run .check).2.store = final at hchecks receives huse ⊢
  have hreceive := mem_receives_iff.mpr huse
  obtain ⟨i, hi⟩ := List.getElem?_of_mem hreceive
  obtain ⟨elem, helem, harity, -⟩ := hchecks.joins i chan vars hi
  -- What the channel carries is found under other names, which agree with the variables.
  obtain ⟨ns, rfl, -⟩ := hchecks.shallow.deref_eq_chan helem
  have hequal : ∀ q ∈ (ns.map Ty.reference).zip vars, final.equal q.1 (final.type q.2) = true := by
    have hfit := receives _ hreceive
    dsimp only at hfit
    rw [Store.carried, helem] at hfit
    rwa [← Ty.elements_carrying]
  rw [Ty.arity_carrying] at harity
  refine ⟨chan, ns, rfl, helem, Store.map_meaning_eq (List.forall₂_iff_zip.mpr ⟨harity, ?_⟩)⟩
  intro n x hmem
  have hcarried : (Ty.reference n, x) ∈ (ns.map Ty.reference).zip vars := by
    rw [List.zip_map_left]
    exact List.mem_map_of_mem hmem
  have hagree := Store.equal_iff_agree.mp (hequal (.reference n, x) hcarried)
  exact funext (hagree.trans (Store.Agree.of_deref_eq (final.deref_reference x)).symm)

theorem wellTyped_checked (parsed : Program.parse source = .ok p)
    (closed : (p.process.map p.store.label).freeLabels = [])
    (outside : ∀ i ∈ (p.process.map p.store.label).inputs, i.1 ∉ i.2)
    (ok : (p.run .check).2.result = .ok .none) (sends : p.checked.SendsAgree)
    (receives : p.checked.ReceivesFit) :
    Determines p.checked.store.Carries ∧
      (p.checked.process.map p.checked.store.label).WellTyped p.checked.store.Carries
        fun _ _ => .untyped := by
  obtain ⟨inferred, hchecks⟩ := checks parsed ok
  have hsent := carries_sent parsed ok sends
  have hreceived := carries_received parsed ok receives
  have hlabel := fun n hn => label_checked parsed ok (n := n) hn
  rw [checked_eq parsed ok] at hsent hreceived hlabel ⊢
  refine ⟨hchecks.shallow.determines, ?_⟩
  have hresolved : p.bound.Resolved p.store.label [] := by
    rw [freeLabels_map, List.map_eq_nil_iff] at closed
    rw [inputs_map] at outside
    exact bind_resolved closed fun i hi => outside _ (List.mem_map_of_mem hi)
  rw [map_congr hlabel]
  exact hresolved.wellTyped hsent hreceived (by simp [Scope.lookup])

theorem exists_steps {μ : Type} [Nonempty μ] {carries : μ → List μ → Prop} {Γ : String → μ}
    (determines : Determines carries) (typed : (p.process.map p.store.label).WellTyped carries Γ)
    (n : Nat) (keeps : ∀ m < n, let before := p.store.reduce p.process m
      before.store.KeepsToCalculus before.process) :
    ∃ steps, (p.run (.reduce n)).2.result = .ok (.count steps) := by
  refine ⟨(p.store.reduce p.process n).steps, ?_⟩
  have hfailure := Store.failure_eq_none determines typed n keeps
  simp only [Program.run, Operation.run, hfailure]

theorem apart_checked (parsed : Program.parse source = .ok p)
    (closed : (p.process.map p.store.label).freeLabels = [])
    (distinct : (p.process.binders.map p.store.label).Nodup)
    (ok : (p.run .check).2.result = .ok .none) : p.checked.store.Apart p.checked.process := by
  obtain ⟨inferred, hchecks⟩ := checks parsed ok
  have hbound := bound_of_parse parsed
  have hlabel := fun n hn => label_checked parsed ok (n := n) hn
  rw [checked_eq parsed ok] at hlabel ⊢
  rw [freeLabels_map, List.map_eq_nil_iff] at closed
  have hbinders : p.bound.binders = p.process.binders := binders_bindIn ..
  refine ⟨fun n hn => ?_, fun n hn => ?_, ?_, bind_confined closed distinct⟩
  · exact (hchecks.retypes.isLive_eq n).trans (isLive_held parsed n hn)
  · rw [hchecks.retypes.isConstant_eq, Store.isConstant, held_get? hn]
    exact hbound.mutable n hn
  · rw [List.map_congr_left fun n hn => hlabel n (binders_subset_occurrences _ hn), hbinders]
    exact distinct

instance (result : Except Error Operation.Value) :
    Decidable (∃ sent received, result = .error (.unevenSubstitution sent received)) :=
  match result with
  | .error (.unevenSubstitution sent received) => .isTrue ⟨sent, received, rfl⟩
  | .ok _ | .error (.immutableName _) | .error (.type _) | .error .format =>
    .isFalse fun ⟨_, _, h⟩ => nomatch h

/-- The text is of a closed program that passes the check and goes wrong within some steps. -/
def GoesWrong (source : String) (n : Nat) : Prop :=
  ∃ p, Program.parse source = .ok p ∧ (p.process.map p.store.label).freeLabels = [] ∧
    (p.run .check).2.result = .ok .none ∧
    ∃ sent received, (p.checked.run (.reduce n)).2.result =
      .error (.unevenSubstitution sent received)

instance (source : String) (n : Nat) : Decidable (GoesWrong source n) :=
  inferInstanceAs (Decidable (∃ p, Program.parse source = .ok p ∧
    (p.process.map p.store.label).freeLabels = [] ∧ (p.run .check).2.result = .ok .none ∧
    ∃ sent received, (p.checked.run (.reduce n)).2.result =
      .error (.unevenSubstitution sent received)))

end Program
end PiCalculus
