import Mathlib
import PiCalculus.Proofs.Binding.Renaming
import PiCalculus.Proofs.Operation.Runs
import PiCalculus.Proofs.Process.Places
import PiCalculus.Proofs.Reduction.Privacy
import PiCalculus.Proofs.Reduction.Selection

/-! How far the relabelling of a communication is seen. In a process that was bound when it had been
read, and has only been reduced since, the names that are relabelled occur in the receive alone. -/

namespace PiCalculus

open Process

namespace Process

variable {ν : Type} {label label' : ν → String} {introduced : ν → Prop} {scope : Scope ν}
  {p : Process ν}

theorem IsResolved.congr {n : ν} (h : IsResolved label introduced scope n)
    (hs : ∀ m ∈ scope, label' m = label m) (hn : label' n = label n) :
    IsResolved label' introduced scope n := by
  have hlookup := Scope.lookup_map (f := id) hn hs
  rw [List.map_id, Option.map_id, id, id] at hlookup
  unfold IsResolved
  rwa [hlookup]

/-- Whether a process is bound depends on the labels of its names and of those in force. -/
theorem WellBound.congr (h : p.WellBound label introduced scope)
    (hs : ∀ m ∈ scope, label' m = label m) (hp : ∀ n ∈ p.occurrences, label' n = label n) :
    p.WellBound label' introduced scope := by
  induction p generalizing scope with
  | nil => simp [WellBound]
  | send chan values =>
    rw [WellBound] at h ⊢
    rw [occurrences] at hp
    exact fun n hn => IsResolved.congr (h n hn) hs (hp n hn)
  | receive chan vars body ih =>
    rw [WellBound] at h ⊢
    rw [occurrences] at hp
    obtain ⟨hchan, hrest⟩ := List.forall_mem_cons.mp hp
    obtain ⟨hvars, hbody⟩ := List.forall_mem_append.mp hrest
    have hinner : ∀ m ∈ vars.reverse ++ scope, label' m = label m :=
      List.forall_mem_append.mpr ⟨fun m hm => hvars m (List.mem_reverse.mp hm), hs⟩
    exact ⟨IsResolved.congr h.1 hinner hchan, ih h.2 hinner hbody⟩
  | par ps ih =>
    rw [WellBound] at h ⊢
    rw [occurrences] at hp
    exact fun q hq => ih q hq (h q hq) hs fun n hn => hp n (List.mem_flatMap.mpr ⟨q, hq, hn⟩)
  | replicate body ih =>
    rw [WellBound] at h ⊢
    rw [occurrences] at hp
    exact ih h hs hp
  | restrict name body ih =>
    rw [WellBound] at h ⊢
    rw [occurrences] at hp
    obtain ⟨hname, hbody⟩ := List.forall_mem_cons.mp hp
    exact ih h (List.forall_mem_cons.mpr ⟨hname, hs⟩) hbody

end Process

namespace Store.Bound

variable {s : Store} {p : Process Name} {way : List Nat} {ps : List (Process Name)}
  {r : Redex Name}

theorem retain (h : s.Bound p) : (s.retain p.occurrences).Bound p := by
  have hget : ∀ n ∈ p.occurrences, (s.retain p.occurrences).get? n = s.get? n := fun n hn => by
    rw [get?_retain, if_pos hn]
  have hresolved := WellBound.congr h.resolved (fun n hn => by cases hn) fun n hn => s.label_retain hn
  refine ⟨fun n hn => ?_, fun n hn => ?_, h.nodup, hresolved⟩
  · rw [isLive, hget n hn]
    exact h.live n hn
  · rw [isConstant, hget n hn]
    exact h.mutable n hn

/-- A name at a node outside the receive stands outside the composition or in another component. -/
theorem outside_of_at? (hr : s.redex? p = some (way, ps, r)) {place : List Nat} {q : Process Name}
    {n : Name} (hat : p.at? place = some q) (hn : n ∈ q.rootNames)
    (outside : ¬ way ++ [r.receiver] <+: place) :
    n ∈ (p.replaceAt way .nil).occurrences ∨
      ∃ i q, ps[i]? = some q ∧ i ≠ r.receiver ∧ n ∈ q.occurrences := by
  have hleads := (of_redex? hr).1
  -- A place at or below the composition is in a component; any other one is still there when the
  -- composition is taken out.
  by_cases hway : way <+: place
  · obtain ⟨rest, rfl⟩ := hway
    rw [at?_append, hleads.at?_eq, Option.bind_some] at hat
    cases rest with
    | nil =>
      obtain rfl : Process.par ps = q := Option.some.inj hat
      cases hn
    | cons k rest =>
      rw [at?] at hat
      obtain ⟨child, hchild, hat⟩ := Option.bind_eq_some_iff.mp hat
      have hne : k ≠ r.receiver := fun heq => outside ⟨rest, by simp [heq]⟩
      exact .inr ⟨k, child, hchild, hne,
        gathers_occurrences.subset_of_at? hat (mem_occurrences_iff.mpr (.inl hn))⟩
  · have hbare := hleads.bare_at?_replaceAt .nil hway
    rw [hat, Option.map_some] at hbare
    obtain ⟨q', hat', hq'⟩ := Option.map_eq_some_iff.mp hbare
    rw [← rootNames_bare, ← hq', rootNames_bare] at hn
    exact .inl (gathers_occurrences.subset_of_at? hat' (mem_occurrences_iff.mpr (.inl hn)))

/-- A name that a communication relabels occurs in the continuation, and nowhere but in the receive. -/
theorem inside_of_label_ne (h : s.Bound p) (hr : s.redex? p = some (way, ps, r)) {n : Name}
    (hn : (s.relabel r.body.prefixNames
      (substitution (r.vars.map s.label) (r.values.map s.label))).label n ≠ s.label n) :
    n ∈ r.body.occurrences ∧ ∀ place q, p.at? place = some q → n ∈ q.rootNames →
      way ++ [r.receiver] <+: place := by
  have hmem : n ∈ r.body.prefixNames := by
    by_contra hout
    exact hn (label_relabel_of_fixed fun hin => (hout hin).elim)
  have hbody := r.body.prefixNames_subset_occurrences hmem
  obtain ⟨other, hat⟩ := at?_receiver hr
  have hocc : n ∈ p.occurrences := by
    refine gathers_occurrences.subset_of_at? hat ?_
    rw [occurrences]
    exact List.mem_cons_of_mem _ (List.mem_append_right _ hbody)
  refine ⟨hbody, fun place q hplace hroot => ?_⟩
  by_contra houtside
  rw [h.label_relabel_reduct hocc] at hn
  exact hn (h.newLabel_eq_of_outside hr (outside_of_at? hr hplace hroot houtside))

end Store.Bound

namespace Program

/-- A program that has been read, bound and then only reduced is bound. -/
theorem bound_runAll_reduce {source : String} {p : Program} (parsed : Program.parse source = .ok p)
    (counts : List Nat) :
    let q := p.runAll (.bind :: counts.map .reduce)
    q.store.Bound q.process := by
  have hbound : (p.run .bind).1.store.Bound (p.run .bind).1.process := (bound_of_parse parsed).retain
  apply runAll_induction (motive := fun q : Program => q.store.Bound q.process) hbound
  intro op hop q hq
  obtain ⟨n, -, rfl⟩ := List.mem_map.mp hop
  exact (hq.run n).1.retain

end Program

namespace Operation

/-- A single step does what the places in the process tell, and where the process has been read and
bound and then only reduced, all labels outside the continuation stay. -/
theorem reduceOnce_specified :
    (∀ held s p after t result, Store.Attempts s p after t result ↔
      after = (reduceOnce.run held s p).process ∧ t = (reduceOnce.run held s p).store ∧
        result = (reduceOnce.run held s p).result) ∧
    ∀ source (p₀ : Program) (counts : List Nat), Program.parse source = .ok p₀ →
      let p := p₀.runAll (.bind :: counts.map .reduce)
      ∀ way ps i j other vars body, p.process.Descends way (.par ps) → p.store.Selects ps i j →
        ps[j]? = some (.receive other vars body) →
        ∀ n, (p.run .reduceOnce).2.store.label n ≠ p.store.label n →
          n ∈ body.occurrences ∧ ∀ place q, p.process.at? place = some q → n ∈ q.rootNames →
            way ++ [j] <+: place := by
  refine ⟨fun held s p after t result => attempts_iff held after t result, ?_⟩
  intro source p₀ counts parsed p way ps i j other vars body d pair receive n hn
  have hbound : p.store.Bound p.process := Program.bound_runAll_reduce parsed counts
  obtain ⟨l, ⟨chan, values, send, -, -⟩, -⟩ := pair.sender.1
  have hr := Store.redex?_of_selects d pair send receive
  have hrun : (p.run .reduceOnce).2 = reduceOnce.run [] p.store p.process := rfl
  rw [hrun, run_reduceOnce_of_some [] hr] at hn
  split at hn
  · exact hbound.inside_of_label_ne hr hn
  · exact (hn rfl).elim

theorem reduceOnce_specified_second_step :
    ∃ p₀, Program.parse "(new c)(c<d> | c(x).(c<x> | c(y).y<y>))" = .ok p₀ ∧
      let p := p₀.runAll (.bind :: [1].map .reduce)
      ∃ way ps i j other vars body, p.process.Descends way (.par ps) ∧ p.store.Selects ps i j ∧
        ps[j]? = some (.receive other vars body) ∧
        ∃ n, (p.run .reduceOnce).2.store.label n ≠ p.store.label n ∧
          n ∈ body.occurrences ∧ ∀ place q, p.process.at? place = some q → n ∈ q.rootNames →
            way ++ [j] <+: place := by
  have hsteps : (match Program.parse "(new c)(c<d> | c(x).(c<x> | c(y).y<y>))" with
      | .ok p₀ =>
        let p := p₀.runAll (.bind :: [1].map .reduce)
        match p.store.redex? p.process with
        | some (_, _, r) =>
          r.vars.any fun n => (p.run .reduceOnce).2.store.label n ≠ p.store.label n
        | none => false
      | .error _ => false) = true := by decide +kernel
  split at hsteps
  · next p₀ parsed =>
    dsimp only at hsteps
    split at hsteps
    · next way ps r hr =>
      obtain ⟨n, -, hn⟩ := List.any_eq_true.mp hsteps
      obtain ⟨d, pair⟩ := Store.selects_of_redex? hr
      obtain ⟨-, -, other, receive, -⟩ := Store.of_redex? hr
      have hchanged := of_decide_eq_true hn
      exact ⟨p₀, parsed, way, ps, r.sender, r.receiver, other, r.vars, r.body, d, pair, receive, n,
        hchanged, reduceOnce_specified.2 _ p₀ [1] parsed way ps r.sender r.receiver other r.vars r.body
          d pair receive n hchanged⟩
    · cases hsteps
  · cases hsteps

end Operation

end PiCalculus
