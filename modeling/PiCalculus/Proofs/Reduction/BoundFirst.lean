import Mathlib
import PiCalculus.Proofs.Process.Alpha
import PiCalculus.Proofs.Reduction.ByLabels
import PiCalculus.Proofs.Reduction.Simplification

/-! Reducing a process as it was read, and reducing it after it has been bound. Without binding, a
communication gives new labels to what a restriction holds but not to the restriction. This can only
happen in the first step, since what a step leaves is bound. -/

namespace PiCalculus

namespace Process

/-- Whether every restriction holds something by its label. -/
def HoldsSomething (p : Process String) : Prop :=
  p.Everywhere fun q => ∀ name body, q = restrict name body → name ∈ body.unboundLabels

section Alpha

variable {p q : Process String} {ρ ρ' : Environment} {depth depth' : Nat}

theorem exists_zip_list {ps qs : List (Process String)} {f g : Process String → Process Referent}
    (h : ∀ p ∈ ps, ∀ q, f p = g q → ∃ z : Process (String × String),
      z.map Prod.fst = p ∧ z.map Prod.snd = q) (same : ps.map f = qs.map g) :
    ∃ zs : List (Process (String × String)),
      zs.map (map Prod.fst) = ps ∧ zs.map (map Prod.snd) = qs := by
  induction ps generalizing qs with
  | nil =>
    obtain rfl : qs = [] := List.map_eq_nil_iff.mp same.symm
    exact ⟨[], rfl, rfl⟩
  | cons p ps ih =>
    cases qs with
    | nil => cases same
    | cons q qs =>
      rw [List.map_cons, List.map_cons, List.cons.injEq] at same
      rw [List.forall_mem_cons] at h
      obtain ⟨z, hp, hq⟩ := h.1 q same.1
      obtain ⟨zs, hps, hqs⟩ := ih h.2 same.2
      exact ⟨z :: zs, by rw [List.map_cons, hp, hps], by rw [List.map_cons, hq, hqs]⟩

/-- Processes that read alike are two labellings of one process. -/
theorem exists_zip (h : p.read ρ depth = q.read ρ' depth') :
    ∃ z : Process (String × String), z.map Prod.fst = p ∧ z.map Prod.snd = q := by
  have pairs : ∀ {as bs : List String}, as.length = bs.length →
      (as.zip bs).map Prod.fst = as ∧ (as.zip bs).map Prod.snd = bs := fun hlen =>
    ⟨List.map_fst_zip hlen.le, List.map_snd_zip hlen.ge⟩
  -- Reading keeps the constructors and the numbers of names, so both can be gone through together.
  induction p generalizing q ρ ρ' depth depth' with
  | nil =>
    cases q with
    | nil => exact ⟨nil, by rw [map], by rw [map]⟩
    | _ => simp [read] at h
  | send chan values =>
    cases q with
    | send chan' values' =>
      simp only [read, send.injEq] at h
      obtain ⟨hfst, hsnd⟩ := pairs (by simpa using congrArg List.length h.2)
      exact ⟨send (chan, chan') (values.zip values'), by rw [map, hfst], by rw [map, hsnd]⟩
    | _ => simp [read] at h
  | receive chan vars body ih =>
    cases q with
    | receive chan' vars' body' =>
      simp only [read, receive.injEq] at h
      obtain ⟨-, hvars, hbody⟩ := h
      obtain ⟨hfst, hsnd⟩ := pairs (by simpa [places] using congrArg List.length hvars)
      obtain ⟨z, rfl, rfl⟩ := ih hbody
      exact ⟨receive (chan, chan') (vars.zip vars') z, by rw [map, hfst], by rw [map, hsnd]⟩
    | _ => simp [read] at h
  | par ps ih =>
    cases q with
    | par qs =>
      simp only [read, par.injEq] at h
      obtain ⟨zs, rfl, rfl⟩ := exists_zip_list (fun p hp q hq => ih p hp hq) h
      exact ⟨par zs, by rw [map], by rw [map]⟩
    | _ => simp [read] at h
  | replicate body ih =>
    cases q with
    | replicate body' =>
      simp only [read, replicate.injEq] at h
      obtain ⟨z, rfl, rfl⟩ := ih h
      exact ⟨replicate z, by rw [map], by rw [map]⟩
    | _ => simp [read] at h
  | restrict name body ih =>
    cases q with
    | restrict name' body' =>
      simp only [read, restrict.injEq] at h
      obtain ⟨z, rfl, rfl⟩ := ih h.2
      exact ⟨restrict (name, name') z, by rw [map], by rw [map]⟩
    | _ => simp [read] at h


/-- Two labellings of a process with no binding lost in between give it the same labels if the
prefixes have the same ones and every restriction holds something. -/
theorem KeepsBinding.map_eq {ν : Type} {old new : ν → String} {p : Process ν}
    (h : p.KeepsBinding old new) (hnames : ∀ n ∈ p.prefixNames, new n = old n)
    (hold : (p.map old).HoldsSomething) : p.map new = p.map old := by
  unfold HoldsSomething at hold
  induction p with
  | nil => rw [map, map]
  | send chan values =>
    rw [prefixNames, List.forall_mem_cons] at hnames
    rw [map, map, hnames.1, List.map_congr_left hnames.2]
  | receive chan vars body ih =>
    rw [prefixNames, List.forall_mem_cons, List.forall_mem_append] at hnames
    obtain ⟨hchan, hvars, hbody⟩ := hnames
    rw [KeepsBinding] at h
    rw [map, everywhere_receive] at hold
    rw [map, map, hchan, List.map_congr_left hvars, ih h.2 hbody hold.2]
  | par ps ih =>
    rw [prefixNames] at hnames
    rw [KeepsBinding] at h
    rw [map, everywhere_par, List.forall_mem_map] at hold
    rw [map, map, par.injEq]
    exact List.map_congr_left fun q hq =>
      ih q hq (h q hq) (fun n hn => hnames n (List.mem_flatMap.mpr ⟨q, hq, hn⟩)) (hold.2 q hq)
  | replicate body ih =>
    rw [prefixNames] at hnames
    rw [KeepsBinding] at h
    rw [map, everywhere_replicate] at hold
    rw [map, map, ih h hnames hold.2]
  | restrict name body ih =>
    rw [prefixNames] at hnames
    rw [KeepsBinding] at h
    rw [map, everywhere_restrict] at hold
    -- The label of the restriction is that of an occurrence, and this is in a prefix.
    obtain ⟨n, hn, hname⟩ : ∃ n ∈ body.unbound old, old n = old name := by
      have hheld := hold.1 (old name) (body.map old) rfl
      rw [unboundLabels_map] at hheld
      exact List.mem_map.mp hheld
    have hnew : new n = new name := (h.1 n (body.unbound_subset_free old hn)).mpr hname
    have hkept : new n = old n :=
      hnames n (body.usedNames_subset_prefixNames (body.unbound_subset_usedNames old hn))
    rw [map, map, ih h.2 hnames hold.2, ← hnew, hkept, hname]

theorem eq_of_uses_map_eq {ν μ : Type} {f g : ν → μ} {p : Process ν}
    (h : (p.map f).uses = (p.map g).uses) : ∀ n ∈ p.prefixNames, f n = g n := by
  rw [uses_map, uses_map, List.map_inj_left] at h
  induction p with
  | nil => simp [prefixNames]
  | send chan values =>
    rw [uses, List.forall_mem_singleton, Use.map, Use.map, Use.sent.injEq, List.map_inj_left] at h
    rw [prefixNames]
    exact List.forall_mem_cons.mpr h
  | receive chan vars body ih =>
    rw [uses, List.forall_mem_append, List.forall_mem_singleton, Use.map, Use.map,
      Use.received.injEq, List.map_inj_left] at h
    rw [prefixNames]
    exact List.forall_mem_cons.mpr ⟨h.2.1, List.forall_mem_append.mpr ⟨h.2.2, ih h.1⟩⟩
  | par ps ih =>
    rw [uses, List.forall_mem_flatMap] at h
    rw [prefixNames, List.forall_mem_flatMap]
    exact fun q hq => ih q hq (h q hq)
  | replicate body ih =>
    rw [uses] at h
    rw [prefixNames]
    exact ih h
  | restrict name body ih =>
    rw [uses] at h
    rw [prefixNames]
    exact ih h

/-- Processes are the same if they are so up to renaming of bound names, with the same labels in
the prefixes, and no restriction is void. -/
theorem AlphaEquivalent.eq (h : AlphaEquivalent p q) (same : p.uses = q.uses)
    (hold : p.HoldsSomething) : p = q := by
  obtain ⟨z, rfl, rfl⟩ := exists_zip h
  have hkeeps : z.KeepsBinding Prod.fst Prod.snd :=
    ((read_map_eq_iff z Environment.below_free Environment.below_free).mp h.symm).1
  exact (hkeeps.map_eq (eq_of_uses_map_eq same.symm) hold).symm

end Alpha

section Step

variable {follows other : String → Process String → Bool} {σ : String → String}
  {p q : Process String}

theorem uses_put (follows : String → Process String → Bool) (σ : String → String)
    (p : Process String) : (p.put follows σ).uses = p.uses.map (Use.map σ) := by
  induction p with
  | par ps ih =>
    rw [put, uses, uses, List.flatMap_map, List.map_flatMap]
    exact List.flatMap_congr ih
  | _ => simp_all [put, uses, Use.map]

theorem uses_dropVacuous (p : Process String) : p.dropVacuous.uses = p.uses := by
  induction p with
  | par ps ih =>
    rw [dropVacuous, uses, uses, List.flatMap_map]
    exact List.flatMap_congr ih
  | restrict name body ih =>
    rw [dropVacuous, uses, ← ih]
    split
    · rw [uses]
    · rfl
  | _ => simp_all [dropVacuous, uses]

theorem Leads.uses_replaceAt {ν : Type} {path : List Nat} {p q a b : Process ν}
    (h : Leads path p q) (same : a.uses = b.uses) :
    (p.replaceAt path a).uses = (p.replaceAt path b).uses := by
  induction h with
  | here p => simpa only [replaceAt] using same
  | component as l bs ih =>
    rw [replaceAt_component, replaceAt_component, uses, uses]
    simp only [List.flatMap_append, List.flatMap_cons, ih]
  | replicate l ih => simpa only [replaceAt, uses] using ih
  | restrict l ih => simpa only [replaceAt, uses] using ih

theorem put_congr (h : p.Everywhere fun q => ∀ name body, q = restrict name body →
      (if follows name body then σ name else name) = if other name body then σ name else name) :
    p.put follows σ = p.put other σ := by
  induction p with
  | nil => rw [put, put]
  | send chan values => rw [put, put]
  | receive chan vars body ih =>
    rw [everywhere_receive] at h
    rw [put, put, ih h.2]
  | par ps ih =>
    rw [everywhere_par] at h
    rw [put, put, par.injEq]
    exact List.map_congr_left fun q hq => ih q hq (h.2 q hq)
  | replicate body ih =>
    rw [everywhere_replicate] at h
    rw [put, put, ih h.2]
  | restrict name body ih =>
    rw [everywhere_restrict] at h
    rw [put, put, ih h.2, h.1 name body rfl]

/-- Steps that give the same labels to the restrictions of the continuation are the same. -/
theorem step_congr (h : ∀ path ps r, p.due? id = some (path, ps, r) →
      r.body.put follows (substitution r.vars r.values) =
        r.body.put other (substitution r.vars r.values)) :
    p.step follows = p.step other := by
  rw [step, step]
  cases hdue : p.due? id with
  | none => rfl
  | some found =>
    obtain ⟨path, ps, r⟩ := found
    dsimp only
    rw [h path ps r hdue]

theorem leads_of_due? {ν : Type} {label : ν → String} {p : Process ν} {path : List Nat}
    {ps : List (Process ν)} {r : Redex ν} (h : p.due? label = some (path, ps, r)) :
    ∃ qs, Leads path p (.par qs) := by
  obtain ⟨way, hway, hfound⟩ := Option.bind_eq_some_iff.mp h
  obtain ⟨q, -, hq⟩ := Option.bind_eq_some_iff.mp hfound
  cases q with
  | par qs =>
    obtain ⟨found, -, hsame⟩ := Option.bind_eq_some_iff.mp hq
    cases hsame
    exact leads_of_focus? hway
  | _ => cases hq

/-- Whatever restrictions get new labels in them, steps are due together, fail together, and leave
the same in the prefixes. -/
theorem step_cases (follows other : String → Process String → Bool) (p : Process String) :
    p.step follows = p.step other ∨
      ∃ a b, p.step follows = .ok (some a) ∧ p.step other = .ok (some b) ∧ a.uses = b.uses := by
  rw [step, step]
  cases hdue : p.due? id with
  | none => exact .inl rfl
  | some found =>
    obtain ⟨path, ps, r⟩ := found
    dsimp only
    split
    · obtain ⟨qs, hleads⟩ := leads_of_due? hdue
      refine .inr ⟨_, _, rfl, rfl, ?_⟩
      rw [uses_prune, uses_prune, uses_dropVacuous, uses_dropVacuous]
      apply hleads.uses_replaceAt
      simp only [uses, List.flatMap_def, List.map_set, uses_put]
    · exact .inl rfl

end Step

end Process

/-- Two runs with as many steps that fail alike, and that leave the same up to renaming of bound
names. -/
structure Reduction.Alike (a b : Reduction) : Prop where
  steps : a.steps = b.steps
  failure : a.failure = b.failure
  process : Process.AlphaEquivalent (a.process.map a.store.label) (b.process.map b.store.label)

namespace Store

open Process

variable {s t : Store} {p q : Process Name} {n : Nat}

theorem SameLabels.alike {a b : Reduction} (h : SameLabels a b) : a.Alike b :=
  ⟨h.steps, h.failure, congrArg nameless h.labels⟩

/-- What a step leaves with its tidying has only restrictions that hold something. -/
theorem Ordinary.holdsSomething (h : s.Ordinary p) (settled : p.bind s.label = p)
    (tidy : p.Everywhere IsTidy) : (p.map s.label).HoldsSomething := by
  rintro place _ hat x body rfl
  rw [at?_map] at hat
  obtain ⟨q, hq, heq⟩ := Option.map_eq_some_iff.mp hat
  cases q with
  | restrict name inner =>
    rw [Process.map, restrict.injEq] at heq
    obtain ⟨rfl, rfl⟩ := heq
    have hused : name ∈ inner.usedNames := (tidy place _ hq).1
    have hmem : name ∈ (Process.restrict name inner).usedNames := by rwa [usedNames]
    exact (h.orderly.mem_usedNames_iff settled hq).mp (gathers_usedNames.subset_of_at? hq hmem)
  | _ => simp [Process.map] at heq

theorem Ordinary.bind (h : s.Ordinary p) : s.Ordinary (p.bind s.label) :=
  ⟨h.plain, h.orderly.bind s.label, fun n hn =>
    h.live n ((mem_occurrences_bindIn hn).resolve_left List.not_mem_nil)⟩

theorem of_stepLabels {a : Process String} (h : s.stepLabels p = .ok (some a)) :
    ∃ q, s.reduceOnce p = .ok (some q) ∧
      (q.process.simplify q.store.label).map q.store.label = a := by
  unfold stepLabels at h
  rcases hq : s.reduceOnce p with e | _ | q <;> rw [hq] at h
  · cases h
  · cases h
  · exact ⟨q, rfl, by simpa [Except.map] using h⟩

theorem reduce_one {q : Reduct} (h : s.reduceOnce p = .ok (some q)) :
    (s.reduce p 1).steps = 1 ∧ (s.reduce p 1).failure = none ∧
      (s.reduce p 1).process = q.process.simplify q.store.label ∧
      (s.reduce p 1).store = q.store := by
  simp [reduce, reduceFrom, h]

/-- Where all occurrences are names of their own, only what is put for the restrictions of the first
continuation depends on whether the process is bound. -/
theorem Ordinary.stepLabels_unbound (h : s.Ordinary p) (nodup : p.occurrences.Nodup) :
    s.stepLabels p = (p.map s.label).step (fun _ _ => false) ∧
      s.stepLabels (p.bind s.label) = (p.map s.label).step holds := by
  refine ⟨h.stepLabels_eq (readsOff_of_nodup nodup), ?_⟩
  rw [h.bind.stepLabels_eq (h.bind.readsOff_of_bound (bind_bind p)), map_bind]

theorem Ordinary.alike_bind (h : s.Ordinary p)
    (first : s.stepLabels p = s.stepLabels (p.bind s.label)) (n : Nat) :
    (s.reduce p n).Alike (s.reduce (p.bind s.label) n) :=
  (h.sameLabels h.bind (map_bind s.label p).symm first 0 n).alike

/-- With one step, a process and what it is bound to be take or miss it together. -/
theorem Ordinary.reduce_one_bind (h : s.Ordinary p) (nodup : p.occurrences.Nodup) :
    (s.reduce p 1).steps = (s.reduce (p.bind s.label) 1).steps ∧
      (s.reduce p 1).failure = (s.reduce (p.bind s.label) 1).failure := by
  obtain ⟨hunbound, hbound⟩ := h.stepLabels_unbound nodup
  rcases step_cases (fun _ _ => false) holds (p.map s.label) with heq | ⟨a, b, ha, hb, -⟩
  · have halike := h.alike_bind (by rw [hunbound, hbound, heq]) 1
    exact ⟨halike.steps, halike.failure⟩
  · obtain ⟨q, hq, -⟩ := of_stepLabels (hunbound.trans ha)
    obtain ⟨r, hr, -⟩ := of_stepLabels (hbound.trans hb)
    obtain ⟨hsteps, hfailure, -⟩ := reduce_one hq
    obtain ⟨hsteps', hfailure', -⟩ := reduce_one hr
    exact ⟨hsteps.trans hsteps'.symm, hfailure.trans hfailure'.symm⟩

/-- If one step leaves the same up to renaming of bound names, it leaves the very same labels. -/
theorem Ordinary.stepLabels_eq_of_alike (h : s.Ordinary p) (nodup : p.occurrences.Nodup)
    (alike : (s.reduce p 1).Alike (s.reduce (p.bind s.label) 1)) :
    s.stepLabels p = s.stepLabels (p.bind s.label) := by
  obtain ⟨hunbound, hbound⟩ := h.stepLabels_unbound nodup
  rcases step_cases (fun _ _ => false) holds (p.map s.label) with heq | ⟨a, b, ha, hb, huses⟩
  · rw [hunbound, hbound, heq]
  · obtain ⟨q, hq, rfl⟩ := of_stepLabels (hunbound.trans ha)
    obtain ⟨r, hr, rfl⟩ := of_stepLabels (hbound.trans hb)
    obtain ⟨-, -, hprocess, hstore⟩ := reduce_one hq
    obtain ⟨-, -, hprocess', hstore'⟩ := reduce_one hr
    have halpha := alike.process
    rw [hprocess, hstore, hprocess', hstore'] at halpha
    have hnext := h.reduceOnce hq
    have htidy : (q.process.simplify q.store.label).Everywhere IsTidy :=
      (h.orderly.reduceOnce hq).isTidy_simplify
    have hold := hnext.holdsSomething (bind_simplify _ _) htidy
    rw [hunbound, hbound, ha, hb, halpha.eq huses hold]

end Store

namespace Program

open Process

variable {source : String} {p : Program}

theorem ordinary_of_parse (parsed : Program.parse source = .ok p) :
    p.store.Ordinary p.process := by
  have horderly := Orderly.of_parse parsed
  obtain ⟨written, -, rfl⟩ := parse_eq_ok_iff_all.mp parsed
  refine ⟨Store.plain_load written, horderly, fun n hn => ?_⟩
  obtain ⟨o, -, ho⟩ := Store.empty.get?_load written hn
  rw [Store.isLive, ho]
  rfl

/-- Reducing what was read and reducing what it is bound to be differ after the first step or not at
all, and not if every restriction in the first continuation that holds something keeps its label. -/
theorem reduce_bind_alike_iff (parsed : Program.parse source = .ok p) :
    let bound := p.process.bind p.store.label
    ((p.store.reduce p.process 1).steps = (p.store.reduce bound 1).steps ∧
      (p.store.reduce p.process 1).failure = (p.store.reduce bound 1).failure) ∧
    ((∀ n, (p.store.reduce p.process n).Alike (p.store.reduce bound n)) ↔
      (p.store.reduce p.process 1).Alike (p.store.reduce bound 1)) ∧
    ((∀ way ps r, p.store.redex? p.process = some (way, ps, r) →
        (r.body.map p.store.label).Everywhere fun q => ∀ x body, q = .restrict x body →
          x ∈ body.unboundLabels →
            substitution (r.vars.map p.store.label) (r.values.map p.store.label) x = x) →
      ∀ n, (p.store.reduce p.process n).Alike (p.store.reduce bound n)) := by
  have hp := ordinary_of_parse parsed
  have hnodup : p.process.occurrences.Nodup := by
    obtain ⟨written, -, rfl⟩ := parse_eq_ok_iff_all.mp parsed
    exact Store.empty.load_occurrences_nodup written
  intro bound
  refine ⟨hp.reduce_one_bind hnodup, ⟨fun h => h 1, fun h => ?_⟩, fun keeps => ?_⟩
  · exact hp.alike_bind (hp.stepLabels_eq_of_alike hnodup h)
  · apply hp.alike_bind
    obtain ⟨hunbound, hbound⟩ := hp.stepLabels_unbound hnodup
    -- Both first steps can be told from the labels, and they differ only in the restrictions that
    -- follow.
    rw [hunbound, hbound]
    refine step_congr fun way ps r hdue => put_congr ?_
    rw [hp.plain.due?_map] at hdue
    obtain ⟨⟨way, qs, found⟩, hr, hsame⟩ := Option.map_eq_some_iff.mp hdue
    cases hsame
    rintro place q hat x body rfl
    have hkept := keeps way qs found hr place _ hat x body rfl
    rw [if_neg Bool.false_ne_true]
    split
    · next hheld => exact (hkept (of_decide_eq_true hheld)).symm
    · rfl

/-- In the second step a value is captured, and a restriction of the first variable holds nothing. -/
theorem reduce_bind_alike_iff_captured :
    ∃ p, Program.parse "a<b> | a(x).(x<c> | b(y).(new c)(y<c> | (new x)d<>))" = .ok p ∧
      (p.store.reduce p.process 2).steps = 2 ∧
      ∀ n, (p.store.reduce p.process n).Alike
        (p.store.reduce (p.process.bind p.store.label) n) := by
  obtain ⟨p, parsed, hsteps, hdue⟩ : ∃ p,
      Program.parse "a<b> | a(x).(x<c> | b(y).(new c)(y<c> | (new x)d<>))" = .ok p ∧
      (p.store.reduce p.process 2).steps = 2 ∧
      (p.store.redex? p.process).all fun found =>
        found.2.2.vars.map p.store.label == ["x"] && found.2.2.values.map p.store.label == ["b"] &&
          (found.2.2.body.map p.store.label).breadthFirst.all fun q =>
            !q.rootBinders.contains "x" || q.children.all fun body =>
              !body.unboundLabels.contains "x" := by decide +kernel
  refine ⟨p, parsed, hsteps, (reduce_bind_alike_iff parsed).2.2 fun way ps r hr => ?_⟩
  rw [hr, Option.all_some] at hdue
  rw [Bool.and_eq_true, Bool.and_eq_true, beq_iff_eq, beq_iff_eq] at hdue
  obtain ⟨⟨hvars, hvalues⟩, hbody⟩ := hdue
  rw [hvars, hvalues, everywhere_iff_breadthFirst]
  rintro q hq name body rfl hname
  have hholds := List.all_eq_true.mp hbody _ hq
  have hne : name ≠ "x" := by
    rintro rfl
    simp [rootBinders, children, hname] at hholds
  simp [substitution, beq_eq_false_iff_ne.mpr hne]

/-- Without binding, what a restriction of the variable's label holds comes free. -/
theorem restricted_comes_free :
    ∃ p, Program.parse "a<b> | a(x).(new x)x<>" = .ok p ∧
      ¬ (p.store.reduce p.process 1).Alike (p.store.reduce (p.process.bind p.store.label) 1) := by
  obtain ⟨p, parsed, hunbound, hbound⟩ : ∃ p,
      Program.parse "a<b> | a(x).(new x)x<>" = .ok p ∧
      ((p.store.reduce p.process 1).process.map
        (p.store.reduce p.process 1).store.label).freeLabels = ["b"] ∧
      ((p.store.reduce (p.process.bind p.store.label) 1).process.map
        (p.store.reduce (p.process.bind p.store.label) 1).store.label).freeLabels = [] := by
    decide +kernel
  refine ⟨p, parsed, fun h => ?_⟩
  have hfree : "b" ∈ ["b"] ↔ "b" ∈ [] := by
    rw [← hunbound, ← hbound]
    exact h.process.mem_freeLabels
  exact List.not_mem_nil (hfree.mp List.mem_cons_self)

end Program

end PiCalculus
