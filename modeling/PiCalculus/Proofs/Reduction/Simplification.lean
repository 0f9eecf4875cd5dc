import Mathlib
import PiCalculus.Proofs.Operation.Runs

/-! What tidying up keeps of any process, with free names and with binders of one label: its sends
and receives in their order, the binder that each of its occurrences refers to, and the process
itself up to structural congruence. References are those of the calculus, where the channel of a receive
stands outside its variables, so no receive may have the label of its channel among them. -/

namespace PiCalculus

variable {ν μ : Type}

def Use.map (f : ν → μ) : Use ν → Use μ
  | .sent chan values => .sent (f chan) (values.map f)
  | .received chan vars => .received (f chan) (vars.map f)

namespace Process

/-- The binders that the occurrences that introduce no name refer to by their labels, if any. -/
@[grind =] def referents (label : ν → String) (scope : Scope ν) : Process ν → List (Option ν)
  | .nil => []
  | .send chan values => (chan :: values).map (scope.lookup label)
  | .receive chan vars body =>
    scope.lookup label chan :: body.referents label (vars.reverse ++ scope)
  | .par ps => ps.flatMap (referents label scope)
  | .replicate body => body.referents label scope
  | .restrict name body => body.referents label (name :: scope)
termination_by p => sizeOf p

/-- Whether no receive has the label of its channel among its variables. -/
def ReceivesOutside (label : ν → String) (p : Process ν) : Prop :=
  ∀ i ∈ p.inputs, label i.1 ∉ i.2.map label

variable {label : ν → String} {introduced : ν → Prop} {drop : ν → Bool} {scope scope' : Scope ν}
  {p : Process ν}

theorem uses_map (f : ν → μ) (p : Process ν) : (p.map f).uses = p.uses.map (Use.map f) := by
  induction p with
  | par ps ih =>
    rw [map, uses, uses, List.flatMap_map, List.map_flatMap]
    exact List.flatMap_congr ih
  | _ => simp_all [map, uses, Use.map]

theorem uses_dropRestrictions (drop : ν → Bool) (p : Process ν) :
    (p.dropRestrictions drop).uses = p.uses := by
  induction p with
  | par ps ih =>
    rw [dropRestrictions, uses, uses, List.flatMap_map]
    exact List.flatMap_congr ih
  | restrict name body ih =>
    rw [dropRestrictions, uses, ← ih]
    split
    · rfl
    · rw [uses]
  | _ => simp_all [dropRestrictions, uses]

theorem collects_uses : Collects fun _ : Scope ν => uses where
  nil scope := by rw [uses]
  receive scope chan vars := ⟨scope, (· ++ [.received chan vars]), fun body => by rw [uses]⟩
  par scope ps := by rw [uses]
  replicate scope body := by rw [uses]
  restrict scope name := ⟨scope, id, rfl, fun body => by rw [uses, id]⟩

theorem uses_prune (p : Process ν) : p.prune.uses = p.uses :=
  collects_uses.prune [] p

theorem uses_simplify [DecidableEq ν] (label : ν → String) (p : Process ν) :
    ((p.simplify label).map label).uses = (p.map label).uses := by
  rw [uses_map, simplify, uses_prune, uses_dropRestrictions, ← uses_map, map_bind]

/-- Only what the scope is for the free occurrences counts. -/
theorem referents_congr
    (h : ∀ n ∈ p.free label, scope.lookup label n = scope'.lookup label n) :
    p.referents label scope = p.referents label scope' := by
  induction p generalizing scope scope' with
  | nil => rw [referents, referents]
  | send chan values =>
    rw [free] at h
    rw [referents, referents]
    exact List.map_congr_left h
  | receive chan vars body ih =>
    rw [free, List.forall_mem_cons] at h
    rw [referents, referents, h.1]
    refine congrArg _ (ih fun n hn => ?_)
    rw [Scope.lookup_append, Scope.lookup_append]
    by_cases hv : label n ∈ vars.map label
    · -- A variable is in force either way.
      obtain ⟨b, hb⟩ : ∃ b, Scope.lookup label vars.reverse n = some b := by
        refine Option.isSome_iff_exists.mp (Option.isSome_iff_ne_none.mpr fun hnone => ?_)
        rw [Scope.lookup_eq_none, List.map_reverse, List.mem_reverse] at hnone
        exact hnone hv
      rw [hb, Option.some_or, Option.some_or]
    · rw [h.2 n (List.mem_filter.mpr ⟨hn, by simpa using hv⟩)]
  | par ps ih =>
    rw [free] at h
    rw [referents, referents]
    exact List.flatMap_congr fun p hp => ih p hp fun n hn => h n (List.mem_flatMap.mpr ⟨p, hp, hn⟩)
  | replicate body ih =>
    rw [free] at h
    rw [referents, referents]
    exact ih h
  | restrict name body ih =>
    rw [free] at h
    rw [referents, referents]
    refine ih fun n hn => ?_
    by_cases hl : label name = label n
    · simp [Scope.lookup, hl]
    · have hmem := h n (List.mem_filter.mpr ⟨hn, by simpa using Ne.symm hl⟩)
      simpa [Scope.lookup, hl] using hmem

theorem referents_bindIn (kept scope : Scope ν) (p : Process ν) :
    (p.bindIn label kept).referents label scope = p.referents label scope := by
  have hr : ∀ (kept scope : Scope ν) n,
      scope.lookup label (kept.resolve label n) = scope.lookup label n := by
    intro kept scope n
    apply Scope.lookup_congr
    unfold Scope.resolve
    cases h : kept.lookup label n with
    | none => rfl
    | some b => exact Scope.label_of_lookup h
  induction p generalizing kept scope with
  | nil => rw [bindIn]
  | send chan values =>
    rw [bindIn, referents, referents, ← List.map_cons, List.map_map]
    exact List.map_congr_left fun n _ => hr kept scope n
  | receive chan vars body ih => rw [bindIn, referents, referents, hr, ih]
  | par ps ih =>
    rw [bindIn, referents, referents, List.flatMap_map]
    exact List.flatMap_congr fun p hp => ih p hp kept scope
  | replicate body ih => rw [bindIn, referents, referents, ih]
  | restrict name body ih => rw [bindIn, referents, referents, ih]

theorem referents_dropRestrictions (h : p.DropsVacuous label drop) (scope : Scope ν) :
    (p.dropRestrictions drop).referents label scope = p.referents label scope := by
  induction p generalizing scope with
  | nil => rw [dropRestrictions]
  | send chan values => rw [dropRestrictions]
  | receive chan vars body ih =>
    rw [DropsVacuous] at h
    rw [dropRestrictions, referents, referents, ih h]
  | par ps ih =>
    rw [DropsVacuous] at h
    rw [dropRestrictions, referents, referents, List.flatMap_map]
    exact List.flatMap_congr fun p hp => ih p hp (h p hp) scope
  | replicate body ih =>
    rw [DropsVacuous] at h
    rw [dropRestrictions, referents, referents, ih h]
  | restrict name body ih =>
    rw [DropsVacuous] at h
    rw [dropRestrictions, referents]
    split
    · next hdrop =>
      rw [ih h.2]
      refine referents_congr fun n hn => ?_
      simp [Scope.lookup, Ne.symm (h.1 hdrop n hn)]
    · rw [referents, ih h.2]

theorem collects_referents (label : ν → String) : Collects (referents label) where
  nil scope := by rw [referents]
  receive scope chan vars :=
    ⟨vars.reverse ++ scope, (scope.lookup label chan :: ·), fun body => by rw [referents]⟩
  par scope ps := by rw [referents]
  replicate scope body := by rw [referents]
  restrict scope name := ⟨name :: scope, id, rfl, fun body => by rw [referents, id]⟩

theorem referents_prune (label : ν → String) (scope : Scope ν) (p : Process ν) :
    p.prune.referents label scope = p.referents label scope :=
  (collects_referents label).prune scope p

/-- Without the exception for channels the scopes of the binder are those of the calculus. -/
theorem free_eq_unbound (h : p.ReceivesOutside label) : p.free label = p.unbound label := by
  induction p with
  | nil => rw [free, unbound]
  | send chan values => rw [free, unbound]
  | receive chan vars body ih =>
    rw [ReceivesOutside, inputs, List.forall_mem_cons] at h
    rw [free, unbound, ih h.2, List.filter_cons_of_pos (by simpa using h.1)]
  | par ps ih =>
    rw [ReceivesOutside, inputs] at h
    rw [free, unbound]
    exact List.flatMap_congr fun p hp =>
      ih p hp fun i hi => h i (List.mem_flatMap.mpr ⟨p, hp, hi⟩)
  | replicate body ih =>
    rw [ReceivesOutside, inputs] at h
    rw [free, unbound, ih h]
  | restrict name body ih =>
    rw [ReceivesOutside, inputs] at h
    rw [free, unbound, ih h]

theorem ReceivesOutside.of_map (h : ∀ i ∈ (p.map label).inputs, i.1 ∉ i.2) :
    p.ReceivesOutside label := by
  rw [inputs_map] at h
  exact fun i hi => h _ (List.mem_map_of_mem hi)

/-- In a bound process a restriction of a name that is not used holds nothing by its label. -/
theorem WellBound.dropsVacuous (h : p.WellBound label introduced scope)
    (outside : p.ReceivesOutside label) (unused : p.DropsUnused drop) :
    p.DropsVacuous label drop := by
  induction p generalizing scope with
  | nil => simp [DropsVacuous]
  | send chan values => simp [DropsVacuous]
  | receive chan vars body ih =>
    rw [WellBound] at h
    rw [ReceivesOutside, inputs, List.forall_mem_cons] at outside
    rw [DropsUnused] at unused
    rw [DropsVacuous]
    exact ih h.2 outside.2 unused
  | par ps ih =>
    rw [WellBound] at h
    rw [ReceivesOutside, inputs] at outside
    rw [DropsUnused] at unused
    rw [DropsVacuous]
    exact fun p hp => ih p hp (h p hp)
      (fun i hi => outside i (List.mem_flatMap.mpr ⟨p, hp, hi⟩)) (unused p hp)
  | replicate body ih =>
    rw [WellBound] at h
    rw [ReceivesOutside, inputs] at outside
    rw [DropsUnused] at unused
    rw [DropsVacuous]
    exact ih h outside unused
  | restrict name body ih =>
    rw [WellBound] at h
    rw [ReceivesOutside, inputs] at outside
    rw [DropsUnused] at unused
    rw [DropsVacuous]
    refine ⟨fun hdrop n hn hl => ?_, ih h outside unused.2⟩
    rw [free_eq_unbound outside] at hn
    -- The restriction is the innermost binder of the label, so the occurrence is its name.
    have hres := h.isResolved_of_unbound hn
    obtain rfl : name = n := by simpa [IsResolved, Scope.lookup, hl.symm] using hres
    exact unused.1 hdrop (body.usedNames_subset_prefixNames (body.unbound_subset_usedNames _ hn))

/-- In a bound process every occurrence is the binder that it refers to, or no binder at all. -/
theorem WellBound.referents_eq [DecidablePred introduced] (h : p.WellBound label introduced scope)
    (hs : ∀ n ∈ scope, introduced n) (hb : ∀ n ∈ p.binders, introduced n)
    (outside : p.ReceivesOutside label) :
    p.referents label scope = p.usedNames.map fun n => if introduced n then some n else none := by
  have resolved : ∀ {scope : Scope ν} {n}, (∀ m ∈ scope, introduced m) →
      IsResolved label introduced scope n →
      scope.lookup label n = if introduced n then some n else none := by
    rintro scope n hs (h | ⟨h, hn⟩)
    · rw [h, if_pos (hs n (List.mem_of_find?_eq_some h))]
    · rw [h, if_neg hn]
  induction p generalizing scope with
  | nil => simp [referents, usedNames]
  | send chan values =>
    rw [WellBound] at h
    rw [referents, usedNames]
    exact List.map_congr_left fun n hn => resolved hs (h n hn)
  | receive chan vars body ih =>
    rw [WellBound] at h
    rw [binders] at hb
    rw [ReceivesOutside, inputs, List.forall_mem_cons] at outside
    have hinner : ∀ n ∈ vars.reverse ++ scope, introduced n := by
      intro n hn
      rw [List.mem_append, List.mem_reverse] at hn
      exact hn.elim (fun hv => hb n (List.mem_append_left _ hv)) (hs n)
    -- The channel may be looked up behind the variables as well, since none of them has its label.
    have hchan : Scope.lookup label (vars.reverse ++ scope) chan = scope.lookup label chan := by
      rw [Scope.lookup_append, Scope.lookup_eq_none.mpr, Option.none_or]
      rw [List.map_reverse, List.mem_reverse]
      exact outside.1
    rw [referents, usedNames, List.map_cons, ← resolved hinner h.1, hchan,
      ih h.2 hinner (fun n hn => hb n (List.mem_append_right _ hn)) outside.2]
  | par ps ih =>
    rw [WellBound] at h
    rw [binders] at hb
    rw [ReceivesOutside, inputs] at outside
    rw [referents, usedNames, List.map_flatMap]
    exact List.flatMap_congr fun p hp => ih p hp (h p hp) hs
      (fun n hn => hb n (List.mem_flatMap.mpr ⟨p, hp, hn⟩))
      fun i hi => outside i (List.mem_flatMap.mpr ⟨p, hp, hi⟩)
  | replicate body ih =>
    rw [WellBound] at h
    rw [binders] at hb
    rw [ReceivesOutside, inputs] at outside
    rw [referents, usedNames]
    exact ih h hs hb outside
  | restrict name body ih =>
    rw [WellBound] at h
    rw [binders, List.forall_mem_cons] at hb
    rw [ReceivesOutside, inputs] at outside
    rw [referents, usedNames]
    exact ih h (List.forall_mem_cons.mpr ⟨hb.1, hs⟩) hb.2 outside

theorem mem_uses_iff_mem_inputs {chan : ν} {vars : List ν} :
    .received chan vars ∈ p.uses ↔ (chan, vars) ∈ p.inputs := by
  induction p with
  | receive chan vars body ih =>
    simp only [uses, inputs, List.mem_append, List.mem_cons, List.not_mem_nil, or_false, ih,
      Use.received.injEq, Prod.mk.injEq]
    exact or_comm
  | par ps ih =>
    simp only [uses, inputs, List.mem_flatMap]
    exact exists_congr fun p => and_congr_right fun hp => ih p hp
  | _ => simp_all [uses, inputs]

/-- Receives keep apart from their channels if the sends and receives stay the same. -/
theorem ReceivesOutside.of_uses {q : Process ν} (h : p.ReceivesOutside label)
    (same : (q.map label).uses = (p.map label).uses) : q.ReceivesOutside label := by
  rintro ⟨chan, vars⟩ hi
  have hq : .received (label chan) (vars.map label) ∈ (q.map label).uses := by
    rw [uses_map]
    exact List.mem_map_of_mem (mem_uses_iff_mem_inputs.mpr hi)
  rw [same, mem_uses_iff_mem_inputs, inputs_map] at hq
  obtain ⟨i, hp, heq⟩ := List.mem_map.mp hq
  obtain ⟨hchan, hvars⟩ := Prod.mk.inj heq
  rw [← hchan, ← hvars]
  exact h i hp

theorem lookup_congr_label {f g : ν → String} {n : ν} (hs : ∀ m ∈ scope, f m = g m)
    (hn : f n = g n) : scope.lookup f n = scope.lookup g n := by
  rw [Scope.lookup, Scope.lookup, hn]
  induction scope with
  | nil => rfl
  | cons m scope ih =>
    obtain ⟨hm, hs⟩ := List.forall_mem_cons.mp hs
    rw [List.find?_cons, List.find?_cons, hm, ih hs]

theorem referents_congr_label {f g : ν → String} (h : ∀ n ∈ p.occurrences, f n = g n)
    (hs : ∀ m ∈ scope, f m = g m) : p.referents f scope = p.referents g scope := by
  induction p generalizing scope with
  | nil => rw [referents, referents]
  | send chan values =>
    rw [occurrences] at h
    rw [referents, referents]
    exact List.map_congr_left fun n hn => lookup_congr_label hs (h n hn)
  | receive chan vars body ih =>
    simp only [occurrences, List.forall_mem_cons, List.mem_append, or_imp, forall_and] at h
    obtain ⟨hchan, hvars, hbody⟩ := h
    have hinner : ∀ m ∈ vars.reverse ++ scope, f m = g m := by
      intro m hm
      rw [List.mem_append, List.mem_reverse] at hm
      exact hm.elim (hvars m) (hs m)
    rw [referents, referents, lookup_congr_label hs hchan, ih hbody hinner]
  | par ps ih =>
    rw [occurrences] at h
    rw [referents, referents]
    exact List.flatMap_congr fun p hp =>
      ih p hp (fun n hn => h n (List.mem_flatMap.mpr ⟨p, hp, hn⟩)) hs
  | replicate body ih =>
    rw [occurrences] at h
    rw [referents, referents, ih h hs]
  | restrict name body ih =>
    rw [occurrences, List.forall_mem_cons] at h
    rw [referents, referents, ih h.2 (List.forall_mem_cons.mpr ⟨h.1, hs⟩)]

section Simplify

variable [DecidableEq ν]

theorem dropsVacuous_bind (label : ν → String) (outside : p.ReceivesOutside label) :
    (p.bind label).DropsVacuous label (isUnused (p.bind label).mentions) := by
  have hbound : (p.bind label).WellBound label (fun _ => False) [] :=
    bindIn_wellBound_of_unbound tracks_nil fun _ _ _ h => h
  have houtside : (p.bind label).ReceivesOutside label := outside.of_uses (by rw [map_bind])
  exact hbound.dropsVacuous houtside (dropsUnused _)

/-- Tidying up stays within structural congruence, whatever is bound and whatever is free. -/
theorem ReceivesOutside.simplify_congruent (outside : p.ReceivesOutside label) :
    Congruent ((p.simplify label).map label) (p.map label) := by
  have hdrop := (dropsVacuous_bind label outside).congruent
  rw [map_bind] at hdrop
  rw [simplify, ← prune_map]
  exact (prune_congruent _).trans hdrop

theorem ReceivesOutside.referents_simplify (outside : p.ReceivesOutside label) :
    (p.simplify label).referents label [] = p.referents label [] := by
  rw [simplify, referents_prune, referents_dropRestrictions (dropsVacuous_bind label outside),
    bind, referents_bindIn]

end Simplify
end Process

/-- What tidying up owes to a program: it stays the same process, its sends and receives stay in
their order, every occurrence goes on to refer to the same binder, and is now the name of it. -/
structure Program.Tidies (p tidy : Program) : Prop where
  congruent :
    Process.Congruent (tidy.process.map tidy.store.label) (p.process.map p.store.label)
  uses : (tidy.process.map tidy.store.label).uses = (p.process.map p.store.label).uses
  nodup : p.process.binders.Nodup
  referents :
    tidy.process.referents tidy.store.label [] = p.process.referents p.store.label []
  resolved :
    tidy.process.referents tidy.store.label [] =
      tidy.process.usedNames.map fun n => if n ∈ tidy.process.binders then some n else none

open Process in
theorem Process.Orderly.tidies {p : Program} (h : p.process.Orderly)
    (outside : p.process.ReceivesOutside p.store.label) : p.Tidies (p.run .simplify).1 := by
  generalize ht : (p.run .simplify).1 = tidy
  have hprocess : tidy.process = p.process.simplify p.store.label := by rw [← ht]; rfl
  have hlabel : ∀ n ∈ tidy.process.occurrences, tidy.store.label n = p.store.label n := by
    intro n hn
    rw [← ht] at hn ⊢
    exact p.store.label_retain hn
  have hmap : tidy.process.map tidy.store.label = tidy.process.map p.store.label :=
    map_congr hlabel
  have hreferents : tidy.process.referents tidy.store.label [] =
      tidy.process.referents p.store.label [] :=
    referents_congr_label hlabel fun m hm => absurd hm List.not_mem_nil
  have huses : (tidy.process.map p.store.label).uses = (p.process.map p.store.label).uses := by
    rw [hprocess]
    exact uses_simplify _ _
  refine ⟨?_, ?_, h.nodup, ?_, ?_⟩
  · rw [hmap, hprocess]
    exact outside.simplify_congruent
  · rw [hmap, huses]
  · rw [hreferents, hprocess]
    exact outside.referents_simplify
  · rw [hreferents]
    -- What is left is bound among all the old binders, and so among its own.
    have hbound : tidy.process.WellBound p.store.label (· ∈ p.process.binders) [] := by
      rw [hprocess]
      exact scoped_wellBound.prune
        (scoped_wellBound.dropRestrictions (h.wellBound_bind p.store.label) (dropsUnused _))
    have hbinders : tidy.process.binders ⊆ p.process.binders := by
      rw [hprocess]
      exact (binders_simplify_sublist _ _).subset
    exact (hbound.of_introduced fun n hn => hbinders hn).referents_eq
      (fun n hn => absurd hn List.not_mem_nil) (fun n hn => hn) (outside.of_uses huses)

namespace Program

theorem simplify_tidies {source : String} {p : Program} (parsed : Program.parse source = .ok p)
    (ops : List Operation)
    (outside : ∀ i ∈ ((p.runAll ops).process.map (p.runAll ops).store.label).inputs,
      i.1 ∉ i.2) :
    (p.runAll ops).Tidies ((p.runAll ops).run .simplify).1 :=
  ((Process.Orderly.of_parse parsed).runAll ops).tidies (.of_map outside)

/-- A captured value keeps the restriction that has come to hold it, and the other ones go. -/
theorem simplify_tidies_captured :
    ∃ p, Program.parse "(new a)(a<b> | a(x).(new b)((new c)x<b> | !0))" = .ok p ∧
      (∀ i ∈ ((p.runAll [.bind, .reduceOnce]).process.map
        (p.runAll [.bind, .reduceOnce]).store.label).inputs, i.1 ∉ i.2) ∧
      ((p.runAll [.bind, .reduceOnce]).run .simplify).1.calculi = "(new b)b<b>" ∧
      (p.runAll [.bind, .reduceOnce]).Tidies
        ((p.runAll [.bind, .reduceOnce]).run .simplify).1 := by
  obtain ⟨p, hp, houtside, htext⟩ : ∃ p,
      Program.parse "(new a)(a<b> | a(x).(new b)((new c)x<b> | !0))" = .ok p ∧
      (∀ i ∈ ((p.runAll [.bind, .reduceOnce]).process.map
        (p.runAll [.bind, .reduceOnce]).store.label).inputs, i.1 ∉ i.2) ∧
      ((p.runAll [.bind, .reduceOnce]).run .simplify).1.calculi = "(new b)b<b>" := by
    decide +kernel
  exact ⟨p, hp, houtside, htext, simplify_tidies hp _ houtside⟩

end Program
end PiCalculus
