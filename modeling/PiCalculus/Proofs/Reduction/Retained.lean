import Mathlib
import PiCalculus.Proofs.Binding.Renaming
import PiCalculus.Proofs.Labelling.InPlace
import PiCalculus.Proofs.Operation.Runs
import PiCalculus.Proofs.Reduction.Selection

/-! A reduction depends on what is known of the names of the process, and on nothing else. So names
that do not occur any more may be dropped between two steps, or after them. -/

namespace PiCalculus

namespace Process

variable {ν : Type} {label label' : ν → String} {p : Process ν}

theorem bind_congr (h : ∀ n ∈ p.occurrences, label' n = label n) : p.bind label' = p.bind label := by
  have hmap := bind_map (f := id) h
  rwa [map_id, map_id] at hmap

theorem simplify_congr [DecidableEq ν] (h : ∀ n ∈ p.occurrences, label' n = label n) :
    p.simplify label' = p.simplify label := by
  rw [simplify, simplify, bind_congr h]

end Process

namespace Store

/-- Two stores that know the same of these names. -/
structure AgreesOn (s t : Store) (names : List Name) : Prop where
  size : s.size = t.size
  get? : ∀ n ∈ names, s.get? n = t.get? n

variable {s t : Store} {p : Process Name} {names fewer : List Name} {n : Name}

namespace AgreesOn

theorem symm (h : s.AgreesOn t names) : t.AgreesOn s names :=
  ⟨h.size.symm, fun n hn => (h.get? n hn).symm⟩

theorem mono (h : s.AgreesOn t names) (hsub : fewer ⊆ names) : s.AgreesOn t fewer :=
  ⟨h.size, fun n hn => h.get? n (hsub hn)⟩

theorem label (h : s.AgreesOn t names) (hn : n ∈ names) : s.label n = t.label n := by
  rw [Store.label, Store.label, h.get? n hn]

theorem sort (h : s.AgreesOn t names) (hn : n ∈ names) : s.sort n = t.sort n := by
  rw [Store.sort, Store.sort, h.get? n hn]

theorem retain_eq (h : s.AgreesOn t names) : s.retain names = t.retain names := by
  apply ext_get?
  · rw [size_retain, size_retain, h.size]
  · intro n
    rw [get?_retain, get?_retain]
    split
    · next hn => exact h.get? n hn
    · rfl

end AgreesOn

theorem agreesOn_retain (s : Store) (names : List Name) : s.AgreesOn (s.retain names) names :=
  ⟨(s.size_retain names).symm, fun n hn => by rw [get?_retain, if_pos hn]⟩

namespace AgreesOn

variable {ps : List (Process Name)} {i : Nat} {l : String} {r : Redex Name} {way : List Nat}

theorem sendsOn (h : s.AgreesOn t (Process.par ps).occurrences) (hs : s.SendsOn ps i l) :
    t.SendsOn ps i l := by
  obtain ⟨chan, values, hi, hsort, hl⟩ := hs
  have hn : chan ∈ (Process.par ps).occurrences := by
    rw [Process.occurrences]
    refine List.mem_flatMap.mpr ⟨_, List.mem_of_getElem? hi, ?_⟩
    rw [Process.occurrences]
    exact List.mem_cons_self
  exact ⟨chan, values, hi, h.sort hn ▸ hsort, h.label hn ▸ hl⟩

theorem receivesOn (h : s.AgreesOn t (Process.par ps).occurrences) (hs : s.ReceivesOn ps i l) :
    t.ReceivesOn ps i l := by
  obtain ⟨chan, vars, body, hi, hsort, hl⟩ := hs
  have hn : chan ∈ (Process.par ps).occurrences := by
    rw [Process.occurrences]
    refine List.mem_flatMap.mpr ⟨_, List.mem_of_getElem? hi, ?_⟩
    rw [Process.occurrences]
    exact List.mem_cons_self
  exact ⟨chan, vars, body, hi, h.sort hn ▸ hsort, h.label hn ▸ hl⟩

theorem selects {j : Nat} (h : s.AgreesOn t (Process.par ps).occurrences) (hs : s.Selects ps i j) :
    t.Selects ps i j := by
  have hsends : ∀ i l, s.SendsOn ps i l ↔ t.SendsOn ps i l :=
    fun i l => ⟨h.sendsOn, h.symm.sendsOn⟩
  have hreceives : ∀ i l, s.ReceivesOn ps i l ↔ t.ReceivesOn ps i l :=
    fun i l => ⟨h.receivesOn, h.symm.receivesOn⟩
  obtain ⟨hsender, hreceiver⟩ := hs
  simp only [hsends, hreceives] at hsender hreceiver
  exact ⟨hsender, hreceiver⟩

theorem redex?_of_some (h : s.AgreesOn t p.occurrences) (hr : s.redex? p = some (way, ps, r)) :
    t.redex? p = some (way, ps, r) := by
  obtain ⟨d, hselects⟩ := selects_of_redex? hr
  obtain ⟨hleads, hsend, other, hreceive, -⟩ := of_redex? hr
  have hinside : (Process.par ps).occurrences ⊆ p.occurrences := fun n hn =>
    Process.gathers_occurrences.subset_of_at? hleads.at?_eq hn
  exact redex?_of_selects d ((h.mono hinside).selects hselects) hsend hreceive

theorem redex?_eq (h : s.AgreesOn t p.occurrences) : s.redex? p = t.redex? p := by
  refine Option.ext fun found => ?_
  obtain ⟨way, ps, r⟩ := found
  exact ⟨h.redex?_of_some, h.symm.redex?_of_some⟩

/-- Relabelling by labels of names that are known alike keeps the agreement. -/
theorem relabel {vars values relabelled : List Name} (h : s.AgreesOn t names) (hvars : vars ⊆ names)
    (hvalues : values ⊆ names) :
    (s.relabel relabelled (substitution (vars.map s.label) (values.map s.label))).AgreesOn
      (t.relabel relabelled (substitution (vars.map t.label) (values.map t.label))) names := by
  have hlabels : ∀ ns ⊆ names, ns.map s.label = ns.map t.label := fun ns hns =>
    List.map_congr_left fun n hn => h.label (hns hn)
  rw [hlabels vars hvars, hlabels values hvalues]
  refine ⟨?_, fun n hn => ?_⟩
  · rw [size_relabel, size_relabel, h.size]
  · rw [get?_relabel, get?_relabel, h.get? n hn]

end AgreesOn

/-- Two attempts at a communication that come to the same, over stores that agree on all names that
are left. -/
inductive SameAttempt : Except Error (Option Reduct) → Except Error (Option Reduct) → Prop
  | failed (e : Error) : SameAttempt (.error e) (.error e)
  | nothing : SameAttempt (.ok none) (.ok none)
  | step {q : Process Name} {s t : Store} (chan : String) (agree : s.AgreesOn t q.occurrences) :
      SameAttempt (.ok (some ⟨q, s, chan⟩)) (.ok (some ⟨q, t, chan⟩))

theorem AgreesOn.reduceOnce (h : s.AgreesOn t p.occurrences) :
    SameAttempt (s.reduceOnce p) (t.reduceOnce p) := by
  unfold Store.reduceOnce
  rw [← h.redex?_eq]
  cases hr : s.redex? p with
  | none => exact .nothing
  | some found =>
    obtain ⟨way, ps, r⟩ := found
    -- What takes part in the step occurs in the process, so both stores know it alike.
    obtain ⟨other, -, hperm⟩ :=
      gathered_reduct Process.gathers_occurrences (by rw [Process.occurrences]) hr
    have hsub := hperm.symm.subset
    rw [Process.occurrences, Process.rootNames, List.append_subset, List.append_subset,
      List.cons_subset, List.cons_subset] at hsub
    obtain ⟨⟨hchan, hvalues⟩, ⟨-, hvars⟩, hleft⟩ := hsub
    dsimp only
    simp only [substitute, List.length_map]
    by_cases even : r.values.length = r.vars.length
    · rw [if_pos even, if_pos even, h.label hchan]
      exact .step _ ((h.relabel hvars hvalues).mono hleft)
    · rw [if_neg even, if_neg even]
      exact .failed _

end Store

/-- Two reductions that leave the same behind, of which the second took so many steps more. -/
structure Reduction.EndsLater (more : Nat) (r r' : Reduction) : Prop where
  process : r.process = r'.process
  store : r.store.AgreesOn r'.store r.process.occurrences
  failure : r.failure = r'.failure
  steps : r.steps + more = r'.steps

theorem Reduction.EndsLater.trans {r r' r'' : Reduction} {more further : Nat}
    (h : EndsLater more r r') (h' : EndsLater further r' r'') : EndsLater (more + further) r r'' := by
  refine ⟨h.process.trans h'.process, ⟨h.store.size.trans h'.store.size, fun n hn => ?_⟩,
    h.failure.trans h'.failure, ?_⟩
  · rw [h.store.get? n hn, h'.store.get? n (h.process ▸ hn)]
  · rw [← Nat.add_assoc, h.steps, h'.steps]

namespace Store

variable {s t : Store} {p : Process Name}

theorem AgreesOn.reduceFrom (h : s.AgreesOn t p.occurrences) (taken more n : Nat) :
    (s.reduceFrom taken n p).EndsLater more (t.reduceFrom (taken + more) n p) := by
  induction n generalizing s t p taken with
  | zero => exact ⟨rfl, h, rfl, rfl⟩
  | succ n ih =>
    have hattempt := h.reduceOnce
    rw [Store.reduceFrom, Store.reduceFrom]
    generalize s.reduceOnce p = first at hattempt ⊢
    generalize t.reduceOnce p = second at hattempt ⊢
    cases hattempt with
    | failed e => exact ⟨rfl, h, rfl, rfl⟩
    | nothing => exact ⟨rfl, h, rfl, rfl⟩
    | @step q u v chan agree =>
      have htidy : q.simplify v.label = q.simplify u.label :=
        Process.simplify_congr fun n hn => (agree.label hn).symm
      have hrest := ih (agree.mono (q.occurrences_simplify_subset u.label)) (taken + 1)
      rw [Nat.add_right_comm] at hrest
      dsimp only
      rw [htidy]
      exact ⟨hrest.process, hrest.store, hrest.failure, hrest.steps⟩

/-- A reduction goes on where an earlier one has stopped. -/
theorem reduceFrom_add {taken m : Nat} (n : Nat) (h : (s.reduceFrom taken m p).failure = none) :
    let first := s.reduceFrom taken m p
    (first.store.reduceFrom first.steps n first.process).EndsLater 0
      (s.reduceFrom taken (m + n) p) := by
  induction m generalizing s p taken with
  | zero =>
    rw [Nat.zero_add]
    exact ⟨rfl, ⟨rfl, fun _ _ => rfl⟩, rfl, rfl⟩
  | succ m ih =>
    rw [Nat.add_right_comm]
    rw [Store.reduceFrom] at h ⊢
    rw [Store.reduceFrom]
    cases hq : s.reduceOnce p with
    | error e =>
      rw [hq] at h
      cases h
    | ok found =>
      cases found with
      | none =>
        dsimp only
        -- Nothing is due any more, so further steps change nothing.
        have hstays : s.reduceFrom taken n p = ⟨p, s, taken, none, []⟩ := by
          cases n with
          | zero => rfl
          | succ n => rw [Store.reduceFrom, hq]
        rw [hstays]
        exact ⟨rfl, ⟨rfl, fun _ _ => rfl⟩, rfl, rfl⟩
      | some q =>
        rw [hq] at h
        have hrest := ih h
        exact ⟨hrest.process, hrest.store, hrest.failure, hrest.steps⟩

end Store

namespace Program

variable {p : Program} {m : Nat}

theorem run_reduce_fst (p : Program) (n : Nat) :
    (p.run (.reduce n)).1 =
      let r := p.store.reduce p.process n
      ⟨r.process, r.store.retain r.process.occurrences⟩ := rfl

/-- What is held of a program after a reduction goes on to be reduced as the program itself. -/
theorem reduce_add (n : Nat) (h : (p.store.reduce p.process m).failure = none) :
    let held := (p.run (.reduce m)).1
    (held.store.reduce held.process n).EndsLater (p.store.reduce p.process m).steps
      (p.store.reduce p.process (m + n)) := by
  rw [run_reduce_fst]
  unfold Store.reduce at h ⊢
  generalize hfirst : p.store.reduceFrom 0 m p.process = first at h ⊢
  have hretained := (first.store.agreesOn_retain first.process.occurrences).symm.reduceFrom 0
    first.steps n
  have hon := Store.reduceFrom_add n (hfirst ▸ h)
  rw [hfirst] at hon
  rw [Nat.zero_add] at hretained
  exact hretained.trans hon

theorem run_reduce_add (n : Nat) (h : (p.store.reduce p.process m).failure = none) :
    ((p.run (.reduce m)).1.run (.reduce n)).1 = (p.run (.reduce (m + n))).1 := by
  have hlater := reduce_add n h
  have hstore := hlater.store.retain_eq
  rw [run_reduce_fst, run_reduce_fst p (m + n), Program.mk.injEq]
  exact ⟨hlater.process, hstore.trans (congrArg _ (congrArg _ hlater.process))⟩

end Program

end PiCalculus
