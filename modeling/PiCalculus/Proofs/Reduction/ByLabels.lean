import Mathlib
import PiCalculus.Proofs.Binding.Restricted
import PiCalculus.Proofs.Store.Sorting

/-! A step is a matter of labels. Where all names can be communicated on, the communication that is due
and what it leaves when it has been tidied up can be read off the labels of a process. Only for the
restrictions in the continuation it must be known which of them are relabelled with what they hold:
those that hold anything if the process is bound, and none of them if all its occurrences are names of
their own. -/

namespace PiCalculus

variable {ν μ : Type}

namespace Process

theorem isPar_map (f : ν → μ) (p : Process ν) : (p.map f).isPar = p.isPar := by
  cases p <;> simp [map, isPar]

theorem children_map (f : ν → μ) (p : Process ν) : (p.map f).children = p.children.map (map f) := by
  cases p <;> simp [map, children]

theorem at?_map (f : ν → μ) (p : Process ν) (path : List Nat) :
    (p.map f).at? path = (p.at? path).map (map f) := by
  induction path generalizing p with
  | nil => rfl
  | cons i path ih =>
    rw [at?, at?, children_map, List.getElem?_map, Option.bind_map, Option.map_bind]
    congr 1
    funext child
    exact ih child

theorem focus?_map (f : ν → μ) (p : Process ν) : (p.map f).focus? = p.focus? := by
  induction p with
  | nil => simp [map, focus?]
  | send chan values => simp [map, focus?]
  | receive chan vars body ih => simp [map, focus?]
  | par ps ih =>
    have hnested : ((ps.map (map f)).map fun p => if p.isPar then p.focus? else none) =
        ps.map fun p => if p.isPar then p.focus? else none := by
      rw [List.map_map]
      refine List.map_congr_left fun p hp => ?_
      rw [Function.comp_apply, isPar_map, ih p hp]
    rw [map, focus?, focus?, hnested]
  | replicate body ih => rw [map, focus?, focus?, ih]
  | restrict name body ih => rw [map, focus?, focus?, ih]

end Process

namespace Redex

def map (f : ν → μ) (r : Redex ν) : Redex μ :=
  ⟨r.sender, f r.chan, r.values.map f, r.receiver, r.vars.map f, r.body.map f⟩

theorem senders_map (f : ν → μ) (ps : List (Process ν)) :
    senders (ps.map (Process.map f)) =
      (senders ps).map fun (i, chan, values) => (i, f chan, values.map f) := by
  rw [senders, senders, List.zipIdx_map, List.filterMap_map, List.map_filterMap]
  refine List.filterMap_congr ?_
  rintro ⟨p, i⟩ -
  cases p <;> simp [Process.map]

theorem receivers_map (f : ν → μ) (ps : List (Process ν)) :
    receivers (ps.map (Process.map f)) =
      (receivers ps).map fun (i, chan, vars, body) => (i, f chan, vars.map f, body.map f) := by
  rw [receivers, receivers, List.zipIdx_map, List.filterMap_map, List.map_filterMap]
  refine List.filterMap_congr ?_
  rintro ⟨p, i⟩ -
  cases p <;> simp [Process.map]

/-- The communication of renamed processes is found by the labels that the new names have. -/
theorem find?_map (f : ν → μ) (label : μ → String) (ps : List (Process ν)) :
    find? label (fun _ => true) (ps.map (Process.map f)) =
      (find? (label ∘ f) (fun _ => true) ps).map (map f) := by
  simp only [find?, List.filter_true, senders_map, receivers_map, List.findSome?_map,
    List.find?_map, Option.map_map, List.map_findSome?]
  congr 1
  funext sender
  rw [Function.comp_apply, Function.comp_apply, Option.map_map]
  rfl

end Redex

namespace Process

/-- The communication that is due if all names can be communicated on. -/
def due? (label : ν → String) (p : Process ν) :
    Option (List Nat × List (Process ν) × Redex ν) := do
  let path ← p.focus?
  match ← p.at? path with
  | .par ps => return (path, ps, ← Redex.find? label (fun _ => true) ps)
  | _ => none

theorem due?_map (f : ν → μ) (label : μ → String) (p : Process ν) :
    (p.map f).due? label =
      (p.due? (label ∘ f)).map fun (path, ps, r) => (path, ps.map (map f), r.map f) := by
  unfold due?
  simp only [Option.bind_eq_bind, focus?_map, at?_map]
  cases p.focus? with
  | none => rfl
  | some path =>
    dsimp only [Option.bind_some]
    cases p.at? path with
    | none => rfl
    | some q =>
      cases q with
      | par ps =>
        simp only [Option.map_some, Option.bind_some, map, Redex.find?_map]
        cases Redex.find? (label ∘ f) (fun _ => true) ps <;> rfl
      | _ => simp [map]


variable {label new : ν → String} {σ : String → String} {drop : ν → Bool} {p : Process ν}

/-- Puts labels for those in the prefixes, and for that of a restriction if this follows. -/
def put (follows : String → Process String → Bool) (σ : String → String) :
    Process String → Process String
  | nil => nil
  | send chan values => send (σ chan) (values.map σ)
  | receive chan vars body => receive (σ chan) (vars.map σ) (body.put follows σ)
  | par ps => par (ps.map (put follows σ))
  | replicate body => replicate (body.put follows σ)
  | restrict name body =>
    restrict (if follows name body then σ name else name) (body.put follows σ)
termination_by p => sizeOf p

/-- Leaves out the restrictions that hold nothing by their labels. -/
def dropVacuous : Process String → Process String
  | nil => nil
  | send chan values => send chan values
  | receive chan vars body => receive chan vars body.dropVacuous
  | par ps => par (ps.map dropVacuous)
  | replicate body => replicate body.dropVacuous
  | restrict name body =>
    if name ∈ body.unboundLabels then restrict name body.dropVacuous else body.dropVacuous
termination_by p => sizeOf p

/-- Whether a restriction holds anything by its label. -/
def holds (name : String) (body : Process String) : Bool := name ∈ body.unboundLabels

/-- Relabelling puts labels, if restrictions get the new labels that they are said to get. -/
theorem map_eq_put {follows : String → Process String → Bool}
    (hnames : ∀ n ∈ p.prefixNames, new n = σ (label n))
    (hrestrict : p.Everywhere fun q => ∀ name body, q = .restrict name body →
      new name = if follows (label name) (body.map label) then σ (label name) else label name) :
    p.map new = (p.map label).put follows σ := by
  induction p with
  | nil => rw [map, map, put]
  | send chan values =>
    rw [prefixNames, List.forall_mem_cons] at hnames
    rw [map, map, put, hnames.1, List.map_map]
    exact congrArg _ (List.map_congr_left hnames.2)
  | receive chan vars body ih =>
    rw [prefixNames, List.forall_mem_cons, List.forall_mem_append] at hnames
    obtain ⟨hchan, hvars, hbody⟩ := hnames
    rw [everywhere_receive] at hrestrict
    rw [map, map, put, hchan, ih hbody hrestrict.2, List.map_map]
    exact congrArg (fun vs => receive _ vs _) (List.map_congr_left hvars)
  | par ps ih =>
    rw [prefixNames] at hnames
    rw [everywhere_par] at hrestrict
    rw [map, map, put, List.map_map, par.injEq]
    exact List.map_congr_left fun q hq =>
      ih q hq (fun n hn => hnames n (List.mem_flatMap.mpr ⟨q, hq, hn⟩)) (hrestrict.2 q hq)
  | replicate body ih =>
    rw [prefixNames] at hnames
    rw [everywhere_replicate] at hrestrict
    rw [map, map, put, ih hnames hrestrict.2]
  | restrict name body ih =>
    rw [prefixNames] at hnames
    rw [everywhere_restrict] at hrestrict
    rw [map, map, put, ih hnames hrestrict.2, hrestrict.1 name body rfl]

theorem map_dropRestrictions (h : p.Everywhere fun q => ∀ name body, q = .restrict name body →
      (drop name ↔ label name ∉ (body.map label).unboundLabels)) :
    (p.dropRestrictions drop).map label = (p.map label).dropVacuous := by
  induction p with
  | nil => rw [dropRestrictions, map, dropVacuous]
  | send chan values => rw [dropRestrictions, map, dropVacuous]
  | receive chan vars body ih =>
    rw [everywhere_receive] at h
    rw [dropRestrictions, map, map, dropVacuous, ih h.2]
  | par ps ih =>
    rw [everywhere_par] at h
    rw [dropRestrictions, map, map, dropVacuous, List.map_map, List.map_map, par.injEq]
    exact List.map_congr_left fun q hq => ih q hq (h.2 q hq)
  | replicate body ih =>
    rw [everywhere_replicate] at h
    rw [dropRestrictions, map, map, dropVacuous, ih h.2]
  | restrict name body ih =>
    rw [everywhere_restrict] at h
    rw [dropRestrictions, map, dropVacuous]
    by_cases hdrop : drop name
    · rw [if_pos hdrop, if_neg ((h.1 name body rfl).mp hdrop), ih h.2]
    · have hheld := not_not.mp fun hnot => hdrop ((h.1 name body rfl).mpr hnot)
      rw [if_neg hdrop, if_pos hheld, map, ih h.2]

/-- Tidying up is read off the labels. -/
theorem Orderly.map_simplify [DecidableEq ν] (h : p.Orderly) (label : ν → String) :
    (p.simplify label).map label = (p.map label).dropVacuous.prune := by
  have hbound : (p.bind label).bind label = p.bind label := bind_bind p
  have hdropped : ((p.bind label).dropRestrictions (isUnused (p.bind label).mentions)).map label =
      ((p.bind label).map label).dropVacuous := by
    apply map_dropRestrictions
    rintro place q hat name body rfl
    exact (h.bind label).isUnused_iff hbound hat
  rw [Process.simplify, ← prune_map, hdropped, map_bind]

/-- One step with its tidying, read off the labels. -/
def step (follows : String → Process String → Bool) (p : Process String) :
    Except Error (Option (Process String)) :=
  match p.due? id with
  | none => .ok none
  | some (path, ps, r) =>
    if r.values.length = r.vars.length then
      .ok (some (p.replaceAt path (.par ((ps.set r.sender .nil).set r.receiver
        (r.body.put follows (substitution r.vars r.values))))).dropVacuous.prune)
    else .error (.unevenSubstitution r.values.length r.vars.length)

end Process

namespace Store

open Process

variable {s t : Store} {p q : Process Name} {path : List Nat} {ps : List (Process Name)}
  {r : Redex Name} {follows : String → Process String → Bool}

theorem Plain.redex?_eq (h : s.Plain) (p : Process Name) : s.redex? p = p.due? s.label := by
  have hfree : s.isFreeName = fun _ => true := by
    funext n
    exact decide_eq_true (h.ordinary n)
  rw [redex?, due?, hfree]
  cases p.focus? with
  | none => rfl
  | some path =>
    dsimp only [Option.bind_eq_bind, Option.bind_some]
    cases p.at? path with
    | none => rfl
    | some q => cases q <;> rfl

theorem Plain.due?_map (h : s.Plain) (p : Process Name) : (p.map s.label).due? id =
    (s.redex? p).map fun (path, ps, r) => (path, ps.map (Process.map s.label), r.map s.label) := by
  rw [Process.due?_map, h.redex?_eq]
  rfl

/-- What a communication does to labels may be told from labels: it relabels nothing outside the
continuation, and there no restrictions but those that follow. -/
structure ReadsOff (follows : String → Process String → Bool) (s : Store) (p : Process Name) :
    Prop where
  outside : ∀ {path ps r}, s.redex? p = some (path, ps, r) → ∀ {n},
    (n ∈ (p.replaceAt path .nil).occurrences ∨
      ∃ i q, ps[i]? = some q ∧ i ≠ r.receiver ∧ n ∈ q.occurrences) →
    r.newLabel s.label n = s.label n
  restricted : ∀ {path ps r}, s.redex? p = some (path, ps, r) → ∀ {place name body},
    r.body.at? place = some (.restrict name body) →
    (name ∈ r.body.prefixNames ↔ follows (s.label name) (body.map s.label))

/-- A process as it is read, and as it is left by a step: every name that it introduces is introduced
once and stays inside, and all names are alive and nothing special is known of them. -/
structure Ordinary (s : Store) (p : Process Name) : Prop where
  plain : s.Plain
  orderly : p.Orderly
  live : ∀ n ∈ p.occurrences, s.isLive n

theorem ReadsOff.map_reduct (h : s.ReadsOff follows p) (hr : s.redex? p = some (path, ps, r)) :
    (p.replaceAt path (.par (r.contract ps))).map (r.newLabel s.label) =
      (p.map s.label).replaceAt path
        (.par (((ps.map (Process.map s.label)).set r.sender .nil).set r.receiver
          ((r.body.map s.label).put follows
            (substitution (r.vars.map s.label) (r.values.map s.label))))) := by
  have hleads := (of_redex? hr).1
  have hbody : r.body.map (r.newLabel s.label) = (r.body.map s.label).put follows
      (substitution (r.vars.map s.label) (r.values.map s.label)) := by
    apply map_eq_put
    · intro n hn
      exact if_pos hn
    · rintro place q hat name body rfl
      rw [Redex.newLabel]
      exact if_congr (h.restricted hr hat) rfl rfl
  rw [hleads.map_replaceAt fun n hn => h.outside hr (.inl hn), Redex.map_contract, hbody]
  exact fun i q hq hi n hn => h.outside hr (.inr ⟨i, q, hq, hi, hn⟩)

/-- The labels that a step leaves with its tidying, or why it fails. -/
def stepLabels (s : Store) (p : Process Name) : Except Error (Option (Process String)) :=
  (s.reduceOnce p).map (Option.map fun q =>
    (q.process.simplify q.store.label).map q.store.label)

theorem Ordinary.stepLabels_eq (h : s.Ordinary p) (reads : s.ReadsOff follows p) :
    s.stepLabels p = (p.map s.label).step follows := by
  rw [stepLabels, step, h.plain.due?_map]
  cases hr : s.redex? p with
  | none =>
    rw [reduceOnce, hr]
    rfl
  | some found =>
    obtain ⟨path, ps, r⟩ := found
    dsimp only [Option.map_some, Redex.map]
    rw [List.length_map, List.length_map]
    split
    · next even =>
      have hreduct := h.orderly.reduct hr
      rw [reduceOnce_of_redex? hr even]
      dsimp only [Except.map, Option.map_some]
      have hlabel : ∀ n ∈ (p.replaceAt path (.par (r.contract ps))).occurrences,
          (s.relabel r.body.prefixNames
            (substitution (r.vars.map s.label) (r.values.map s.label))).label n =
          r.newLabel s.label n := by
        intro n hn
        rw [label_relabel (h.live n (Bound.occurrences_reduct hr hn)) (h.plain.writable n),
          Redex.newLabel]
      rw [hreduct.map_simplify, map_congr hlabel, reads.map_reduct hr]
    · next uneven =>
      rw [reduceOnce, hr]
      dsimp only
      rw [substitute, if_neg (by simpa using uneven), List.length_map, List.length_map]
      rfl

theorem Ordinary.reduceOnce (h : s.Ordinary p) {q : Reduct} (hq : s.reduceOnce p = .ok (some q)) :
    q.store.Ordinary (q.process.simplify q.store.label) := by
  have horderly := (h.orderly.reduceOnce hq).simplify q.store.label
  obtain ⟨path, ps, r, hr, -, rfl⟩ := of_reduceOnce hq
  refine ⟨h.plain.relabel _ _, horderly, fun n hn => ?_⟩
  rw [isLive_relabel]
  exact h.live n (Bound.occurrences_reduct hr (occurrences_simplify_subset _ _ hn))

theorem Ordinary.bound (h : s.Ordinary p) (settled : p.bind s.label = p) : s.Bound p := by
  have hresolved := h.orderly.wellBound_bind s.label
  rw [settled] at hresolved
  exact ⟨h.live, fun n _ => h.plain.writable n, h.orderly.nodup, hresolved⟩

/-- In a bound process the restrictions are relabelled that hold anything. -/
theorem Ordinary.readsOff_of_bound (h : s.Ordinary p) (settled : p.bind s.label = p) :
    s.ReadsOff holds p := by
  refine ⟨fun hr n hn => (h.bound settled).newLabel_eq_of_outside hr hn, ?_⟩
  intro path ps r hr place name body hat
  obtain ⟨other, hreceiver⟩ := at?_receiver hr
  have hbody : p.at? (path ++ [r.receiver] ++ [0]) = some r.body := by
    rw [at?_append, hreceiver]
    rfl
  have hplace : p.at? (path ++ [r.receiver] ++ [0] ++ place) = some (.restrict name body) := by
    rw [at?_append, hbody]
    exact hat
  have hnodup : r.body.binders.Nodup := by
    obtain ⟨around, hself, -⟩ := gathers_binders.replaceAt_perm hbody
    exact (hself.nodup_iff.mp h.orderly.nodup).of_append_right
  -- Relabelled is what is in a prefix, and a restricted name is so by being used.
  rw [holds, decide_eq_true_eq, ← h.orderly.mem_usedNames_iff settled hplace]
  constructor
  · intro hn
    have hused := mem_usedNames_of_mem_prefixNames hnodup (mem_restrictedNames_of_at? hat) hn
    exact gathers_usedNames.subset_of_at? hbody hused
  · intro hn
    have hinside := h.orderly.mem_usedNames_of_at? hplace hn
    have hrestrict : name ∈ (Process.restrict name body).usedNames := by rwa [usedNames]
    exact usedNames_subset_prefixNames _ (gathers_usedNames.subset_of_at? hat hrestrict)

open scoped List in
/-- Where all occurrences are names of their own, no restriction is relabelled with what it holds. -/
theorem readsOff_of_nodup (nodup : p.occurrences.Nodup) : s.ReadsOff (fun _ _ => false) p := by
  -- What stands outside the receive, and what is left of the components beside it, shares no name
  -- with the continuation.
  have inside : ∀ {path ps r}, s.redex? p = some (path, ps, r) → ∃ outside others,
      (∀ n, n ∈ (p.replaceAt path .nil).occurrences → n ∈ outside) ∧
      (∀ i q, ps[i]? = some q → i ≠ r.receiver → q.occurrences ⊆ others) ∧
      (outside ++ others ++ r.body.occurrences).Nodup := by
    intro path ps r hr
    obtain ⟨hleads, -, other, hreceive, -⟩ := of_redex? hr
    obtain ⟨outside, hself, hput⟩ := gathers_occurrences.replaceAt_perm hleads.at?_eq
    obtain ⟨others, hpar, hset⟩ := gathers_occurrences.set_perm hreceive
    refine ⟨outside, others, fun n hn => ?_, fun i q hq hi n hn => ?_, ?_⟩
    · simpa [occurrences] using (hput .nil).subset hn
    · have hmem : q ∈ ps.set r.receiver .nil :=
        List.mem_of_getElem? (i := i) (by rwa [List.getElem?_set_ne (Ne.symm hi)])
      have hin : n ∈ (Process.par (ps.set r.receiver .nil)).occurrences := by
        rw [occurrences]
        exact List.mem_flatMap.mpr ⟨q, hmem, hn⟩
      simpa [occurrences] using (hset .nil).subset hin
    · have hbody : r.body.occurrences <+ (Process.receive other r.vars r.body).occurrences := by
        rw [occurrences]
        exact (List.sublist_append_right ..).cons other
      refine List.Nodup.sublist (hbody.append_left _) ?_
      rw [List.append_assoc]
      exact (hself.trans (hpar.append_left _)).nodup_iff.mp nodup
  constructor
  · intro path ps r hr n hn
    obtain ⟨outside, others, hleft, hright, hnodup⟩ := inside hr
    have hapart := (List.nodup_append.mp hnodup).2.2
    have haround : n ∈ outside ++ others := by
      rcases hn with hn | ⟨i, q, hq, hi, hn⟩
      · exact List.mem_append_left _ (hleft n hn)
      · exact List.mem_append_right _ (hright i q hq hi hn)
    rw [Redex.newLabel, if_neg]
    exact fun hin => hapart n haround n (r.body.prefixNames_subset_occurrences hin) rfl
  · intro path ps r hr place name body hat
    obtain ⟨outside, others, -, -, hnodup⟩ := inside hr
    have hbody := (List.nodup_append.mp hnodup).2.1
    have hparts := List.nodup_append.mp (r.body.occurrences_perm_prefixNames.nodup_iff.mp hbody)
    refine iff_of_false (fun hin => ?_) Bool.false_ne_true
    exact hparts.2.2 name hin name (mem_restrictedNames_of_at? hat) rfl

/-- Steps that leave the same labels fail alike, are both not due, or are both made. -/
theorem cases_of_stepLabels_eq (h : s.stepLabels p = t.stepLabels q) :
    (∃ e, s.reduceOnce p = .error e ∧ t.reduceOnce q = .error e) ∨
    (s.reduceOnce p = .ok none ∧ t.reduceOnce q = .ok none) ∨
    ∃ a b, s.reduceOnce p = .ok (some a) ∧ t.reduceOnce q = .ok (some b) ∧
      (a.process.simplify a.store.label).map a.store.label =
        (b.process.simplify b.store.label).map b.store.label := by
  unfold stepLabels at h
  rcases hp : s.reduceOnce p with e | _ | a <;> rcases hq : t.reduceOnce q with e' | _ | b <;>
    simp_all [Except.map]

/-- Two runs that take as many steps and fail alike, and that leave the same labels. -/
structure SameLabels (a b : Reduction) : Prop where
  steps : a.steps = b.steps
  failure : a.failure = b.failure
  labels : a.process.map a.store.label = b.process.map b.store.label

/-- After a first step that leaves the same labels, whatever it relabelled, all others do. -/
theorem Ordinary.sameLabels (hs : s.Ordinary p) (ht : t.Ordinary q)
    (same : p.map s.label = q.map t.label) (first : s.stepLabels p = t.stepLabels q)
    (taken n : Nat) : SameLabels (s.reduceFrom taken n p) (t.reduceFrom taken n q) := by
  induction n generalizing s t p q taken with
  | zero => exact ⟨rfl, rfl, same⟩
  | succ n ih =>
    rw [reduceFrom, reduceFrom]
    rcases cases_of_stepLabels_eq first with ⟨e, hp, hq⟩ | ⟨hp, hq⟩ | ⟨a, b, hp, hq, hlabels⟩
    · rw [hp, hq]
      exact ⟨rfl, rfl, same⟩
    · rw [hp, hq]
      exact ⟨rfl, rfl, same⟩
    · -- What has been tidied up is bound, so from here on both runs are read off in one way.
      have ha := hs.reduceOnce hp
      have hb := ht.reduceOnce hq
      have hnext : a.store.stepLabels (a.process.simplify a.store.label) =
          b.store.stepLabels (b.process.simplify b.store.label) := by
        rw [ha.stepLabels_eq (ha.readsOff_of_bound (bind_simplify _ _)),
          hb.stepLabels_eq (hb.readsOff_of_bound (bind_simplify _ _)), hlabels]
      have hrest := ih ha hb hlabels hnext (taken + 1)
      rw [hp, hq]
      exact ⟨hrest.steps, hrest.failure, hrest.labels⟩

end Store
end PiCalculus
