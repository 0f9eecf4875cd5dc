import Mathlib
import PiCalculus.Proofs.Binding.Confined
import PiCalculus.Proofs.Labelling.Unique
import PiCalculus.Proofs.Process.Alpha
import PiCalculus.Proofs.Reduction.Capture

/-! What labels of their own leave as it was. Where different names have different labels there is
nothing to be bound, and a process that resolves under its old labels and under its new ones is the
same up to renaming of bound names. The number in a new label is that of the different names which
are met before it. -/

namespace PiCalculus

variable {ν : Type} {label old new : ν → String} {scope : Scope ν} {p : Process ν} {n : ν}

theorem takeWhile_filter_ne [DecidableEq ν] {m : ν} (hm : m ≠ n) (ns : List ν) :
    (ns.filter fun b => !b == m).takeWhile (· ≠ n) =
      (ns.takeWhile (· ≠ n)).filter fun b => !b == m := by
  induction ns with
  | nil => rfl
  | cons a ns ih =>
    by_cases ham : a = m
    · simpa [ham, hm] using ih
    · by_cases han : a = n
      · simp [han, hm.symm]
      · simpa [ham, han] using ih

/-- The place among the different members of a list counts the different ones before. -/
theorem idxOf_eraseDups [DecidableEq ν] {ns : List ν} (hn : n ∈ ns) :
    ns.eraseDups.idxOf n = (ns.takeWhile (· ≠ n)).toFinset.card := by
  -- The rest is searched without the first name, so the induction is on the length.
  induction hk : ns.length using Nat.strong_induction_on generalizing ns with
  | h k ih =>
    cases ns with
    | nil => cases hn
    | cons m ns =>
      rw [List.eraseDups_cons]
      by_cases hm : m = n
      · simp [hm]
      · have hmem : n ∈ ns.filter fun b => !b == m := by
          have hns : n ∈ ns := (List.mem_cons.mp hn).resolve_left (Ne.symm hm)
          simpa [hns] using Ne.symm hm
        have hlt : (ns.filter fun b => !b == m).length < k := by
          have hle := List.length_filter_le (fun b => !b == m) ns
          rw [← hk, List.length_cons]
          exact Nat.lt_succ_of_le hle
        have hfilter : ((ns.filter fun b => !b == m).takeWhile (· ≠ n)).toFinset =
            (insert m (ns.takeWhile (· ≠ n)).toFinset).erase m := by
          rw [takeWhile_filter_ne hm, Finset.erase_insert_eq_erase]
          ext a
          simp [and_comm]
        rw [List.idxOf_cons_ne _ hm, ih _ hlt hmem rfl, hfilter, Nat.succ_eq_add_one,
          Finset.card_erase_add_one (Finset.mem_insert_self ..),
          List.takeWhile_cons_of_pos (by simpa using hm), List.toFinset_cons]

namespace Scope

/-- Among names with labels of their own a name resolves to itself. -/
theorem resolve_of_injOn {names : Set ν} (apart : Set.InjOn label names)
    (hscope : ∀ m ∈ scope, m ∈ names) (hn : n ∈ names) : scope.resolve label n = n := by
  rw [resolve]
  cases hfound : scope.lookup label n with
  | none => rfl
  | some m =>
    have hm : m ∈ names := hscope m (List.mem_of_find?_eq_some hfound)
    exact apart hm hn (label_of_lookup hfound)

end Scope

namespace Process

theorem bindIn_of_injOn {names : Set ν} (apart : Set.InjOn label names)
    (hscope : ∀ m ∈ scope, m ∈ names) (hp : ∀ n ∈ p.occurrences, n ∈ names) :
    p.bindIn label scope = p := by
  induction p generalizing scope with
  | nil => rw [bindIn]
  | send chan values =>
    rw [occurrences, List.forall_mem_cons] at hp
    rw [bindIn, Scope.resolve_of_injOn apart hscope hp.1, send.injEq]
    refine ⟨rfl, (List.map_congr_left fun v hv => ?_).trans (List.map_id' values)⟩
    exact Scope.resolve_of_injOn apart hscope (hp.2 v hv)
  | receive chan vars body ih =>
    simp only [occurrences, List.forall_mem_cons, List.forall_mem_append] at hp
    obtain ⟨hchan, hvars, hbody⟩ := hp
    have hinner : ∀ m ∈ scope.receive label vars, m ∈ names := by
      intro m hm
      rcases List.mem_append.mp hm with hm | hm
      · exact hvars m (List.mem_reverse.mp hm)
      · exact hscope m (List.mem_of_mem_filter hm)
    have hchannel : ∀ m ∈ (scope.receive label vars).withChannel label chan, m ∈ names := by
      unfold Scope.withChannel
      split
      · exact hinner
      · exact List.forall_mem_cons.mpr ⟨hchan, hinner⟩
    rw [bindIn, Scope.resolve_of_injOn apart hinner hchan, ih hchannel hbody]
  | par ps ih =>
    rw [occurrences] at hp
    rw [bindIn, par.injEq]
    refine (List.map_congr_left fun q hq => ?_).trans (List.map_id' ps)
    exact ih q hq hscope fun n hn => hp n (List.mem_flatMap.mpr ⟨q, hq, hn⟩)
  | replicate body ih =>
    rw [occurrences] at hp
    rw [bindIn, ih hscope hp]
  | restrict name body ih =>
    rw [occurrences, List.forall_mem_cons] at hp
    have hinner : ∀ m ∈ scope.restrict label name, m ∈ names := by
      intro m hm
      rcases List.mem_cons.mp hm with rfl | hm
      · exact hp.1
      · exact hscope m (List.mem_of_mem_filter hm)
    rw [bindIn, ih hinner hp.2]

/-- A name that both labellings find among the variables, or neither, has one place among them. -/
theorem lastPlace?_map_eq_of_lookup {vars : List ν}
    (hold : ∀ v, Scope.lookup old vars.reverse n = some v → v = n)
    (hnew : ∀ v, Scope.lookup new vars.reverse n = some v → v = n) :
    lastPlace? (new n) (vars.map new) = lastPlace? (old n) (vars.map old) := by
  induction vars with
  | nil => rfl
  | cons x vars ih =>
    simp only [List.reverse_cons, Scope.lookup_append] at hold hnew
    have hvars := ih (fun v hv => hold v (by rw [hv, Option.some_or]))
      (fun v hv => hnew v (by rw [hv, Option.some_or]))
    rw [List.map_cons, List.map_cons, lastPlace?, lastPlace?, hvars]
    cases hplace : lastPlace? (old n) (vars.map old) with
    | some i => rfl
    | none =>
      -- The variables behind do not have the label, so it is the first one that is found.
      have notFound : ∀ {l : ν → String}, lastPlace? (l n) (vars.map l) = none →
          Scope.lookup l vars.reverse n = none := by
        intro l hl
        rw [Scope.lookup_eq_none, List.map_reverse, List.mem_reverse]
        exact lastPlace?_eq_none.mp hl
      rw [notFound hplace, Option.none_or] at hold
      rw [notFound (hvars.trans hplace), Option.none_or] at hnew
      have first : new x = new n ↔ old x = old n := by
        constructor
        · intro hx
          rw [hnew x (by simp [Scope.lookup, hx])]
        · intro hx
          rw [hold x (by simp [Scope.lookup, hx])]
      simp only [first]

namespace Resolved

/-- What no binder inside holds under any labels is found outside. -/
theorem lookup_of_mem_free (h : p.Resolved label scope) (hn : n ∈ p.free new) :
    scope.lookup label n = some n :=
  scoped_resolved.of_free h hn

/-- Every binder of a process that resolves under two labellings binds alike under them. -/
theorem keepsBinding (hold : p.Resolved old scope) (hnew : p.Resolved new scope) :
    p.KeepsBinding old new := by
  induction p generalizing scope with
  | nil => simp [KeepsBinding]
  | send chan values => simp [KeepsBinding]
  | receive chan vars body ih =>
    rw [Resolved] at hold hnew
    rw [KeepsBinding]
    refine ⟨fun n hn => ?_, ih hold.2 hnew.2⟩
    -- Whatever variable either labelling finds for the name is this name itself.
    have among : ∀ {l : ν → String}, Scope.lookup l (vars.reverse ++ scope) n = some n →
        ∀ v, Scope.lookup l vars.reverse n = some v → v = n := by
      intro l hl v hv
      rw [Scope.lookup_append, hv, Option.some_or] at hl
      exact Option.some_inj.mp hl
    apply lastPlace?_map_eq_of_lookup
    · exact among (hold.2.lookup_of_mem_free hn)
    · exact among (hnew.2.lookup_of_mem_free hn)
  | par ps ih =>
    rw [Resolved] at hold hnew
    rw [KeepsBinding]
    exact fun p hp => ih p hp (hold p hp) (hnew p hp)
  | replicate body ih =>
    rw [Resolved] at hold hnew
    rw [KeepsBinding]
    exact ih hold hnew
  | restrict name body ih =>
    rw [Resolved] at hold hnew
    rw [KeepsBinding]
    refine ⟨fun n hn => ?_, ih hold hnew⟩
    have innermost : ∀ {l : ν → String}, Scope.lookup l (name :: scope) n = some n →
        l n = l name → n = name := by
      intro l hfound hl
      rw [Scope.lookup, List.find?_cons_of_pos (by simpa using hl.symm)] at hfound
      exact (Option.some_inj.mp hfound).symm
    constructor
    · intro hl
      rw [innermost (hnew.lookup_of_mem_free hn) hl]
    · intro hl
      rw [innermost (hold.lookup_of_mem_free hn) hl]

theorem alphaEquivalent (hold : p.Resolved old []) (hnew : p.Resolved new []) :
    AlphaEquivalent (p.map new) (p.map old) := by
  apply (read_map_eq_iff p Environment.below_free Environment.below_free).mpr
  rw [hold.confined.free_eq_nil]
  exact ⟨hold.keepsBinding hnew, fun n hn => absurd hn List.not_mem_nil⟩

end Resolved
end Process

namespace Store

open Process

variable {s : Store} {p : Process Name}

theorem label_makeUnique (live : ∀ n ∈ p.occurrences, s.isLive n)
    (mutable : ∀ n ∈ p.occurrences, s.isConstant n = false) {n : Name} (hn : n ∈ p.occurrences) :
    (s.makeUnique p).store.label n = numbered (s.label n) (number p n) := by
  obtain ⟨e, he⟩ := Option.isSome_iff_exists.mp (live n hn)
  rw [label, (makeUnique_spec mutable).2 n hn, label, he]
  rfl

theorem injOn_label_makeUnique (live : ∀ n ∈ p.occurrences, s.isLive n)
    (mutable : ∀ n ∈ p.occurrences, s.isConstant n = false) :
    Set.InjOn (s.makeUnique p).store.label {n | n ∈ p.occurrences} := by
  intro n hn m hm hl
  exact makeUnique_label_injOn live mutable hn hm hl

/-- Of whatever labels names have, those made from them tell the names apart and nothing else, so
that the binders of a closed process bind what they did. -/
theorem makeUnique_renumbers :
    (∀ (s : Store) (p : Process Name), (∀ n ∈ p.occurrences, s.isLive n ∧ s.isConstant n = false) →
      let t := (s.makeUnique p).store
      (s.makeUnique p).failure = none ∧
        (∀ n ∈ p.occurrences, ∀ m ∈ p.occurrences, t.label n = t.label m ↔ n = m) ∧
        (∀ n ∈ p.occurrences, t.label n =
          s.label n ++ "_" ++ toString (p.walk.takeWhile (· ≠ n)).toFinset.card) ∧
        p.bind t.label = p) ∧
      ∀ (source : String) (p : Program), Program.parse source = .ok p →
        (p.process.map p.store.label).freeLabels = [] →
        (∀ i ∈ (p.process.map p.store.label).inputs, i.1 ∉ i.2) →
        let q := p.process.bind p.store.label
        (p.store.makeUnique q).failure = none ∧
          AlphaEquivalent (q.map (p.store.makeUnique q).store.label)
            (p.process.map p.store.label) := by
  constructor
  · intro s p names
    have live : ∀ n ∈ p.occurrences, s.isLive n := fun n hn => (names n hn).1
    have mutable : ∀ n ∈ p.occurrences, s.isConstant n = false := fun n hn => (names n hn).2
    have apart := injOn_label_makeUnique live mutable
    refine ⟨(makeUnique_spec mutable).1, fun n hn m hm => apart.eq_iff hn hm, fun n hn => ?_, ?_⟩
    · have hplace : number p n = (p.walk.takeWhile (· ≠ n)).toFinset.card :=
        idxOf_eraseDups (mem_walk.mpr hn)
      rw [label_makeUnique live mutable hn, hplace]
      rfl
    · exact bindIn_of_injOn apart (fun m hm => absurd hm List.not_mem_nil) fun n hn => hn
  · intro source p parsed closed outside
    have hbound := Program.bound_of_parse parsed
    rw [freeLabels_map, List.map_eq_nil_iff] at closed
    rw [inputs_map] at outside
    have hold := bind_resolved closed fun i hi => outside _ (List.mem_map_of_mem hi)
    -- Under the new labels different binders have different labels, whatever they had.
    have hnodup : ((p.process.bind p.store.label).binders.map
        (p.store.makeUnique (p.process.bind p.store.label)).store.label).Nodup :=
      hbound.nodup.map_on fun n hn m hm hl =>
        injOn_label_makeUnique hbound.live hbound.mutable (binders_subset_occurrences _ hn)
          (binders_subset_occurrences _ hm) hl
    refine ⟨(makeUnique_spec hbound.mutable).1, ?_⟩
    have halpha := hold.alphaEquivalent (hold.confined.resolved hnodup)
    rwa [map_bind] at halpha

/-- Some labels end in numbers already, one variable is written twice and a label is used again. -/
theorem makeUnique_renumbers_numbered :
    ∃ p, Program.parse "(new a,a_0)(a<a_0> | a(x,x).(new x_3)(x<x_3> | x_3(a).a<x>))" = .ok p ∧
      let q := p.process.bind p.store.label
      let t := (p.store.makeUnique q).store
      t.calculi q = "(new a_0)(new a_0_1)(a_0<a_0_1> | " ++
        "a_0(x_2,x_3).(new x_3_4)(x_3<x_3_4> | x_3_4(a_5).a_5<x_3>))" ∧
      (∀ n ∈ q.occurrences, ∀ m ∈ q.occurrences, t.label n = t.label m ↔ n = m) ∧
      q.bind t.label = q ∧ AlphaEquivalent (q.map t.label) (p.process.map p.store.label) := by
  obtain ⟨p, parsed, htext, hnames, closed, outside⟩ : ∃ p,
      Program.parse "(new a,a_0)(a<a_0> | a(x,x).(new x_3)(x<x_3> | x_3(a).a<x>))" = .ok p ∧
      (p.store.makeUnique (p.process.bind p.store.label)).store.calculi
        (p.process.bind p.store.label) = "(new a_0)(new a_0_1)(a_0<a_0_1> | " ++
          "a_0(x_2,x_3).(new x_3_4)(x_3<x_3_4> | x_3_4(a_5).a_5<x_3>))" ∧
      (∀ n ∈ (p.process.bind p.store.label).occurrences,
        p.store.isLive n ∧ p.store.isConstant n = false) ∧
      (p.process.map p.store.label).freeLabels = [] ∧
      ∀ i ∈ (p.process.map p.store.label).inputs, i.1 ∉ i.2 := by
    decide +kernel
  obtain ⟨-, apart, -, rebound⟩ := makeUnique_renumbers.1 p.store _ hnames
  have halpha := (makeUnique_renumbers.2 _ p parsed closed outside).2
  exact ⟨p, parsed, htext, apart, rebound, halpha⟩

end Store
end PiCalculus
