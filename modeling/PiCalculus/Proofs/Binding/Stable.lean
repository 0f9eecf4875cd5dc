import Mathlib
import PiCalculus.Proofs.Binding.Renaming
import PiCalculus.Proofs.Binding.Unbound

/-! What is bound stays bound when it is tidied up. A restriction that goes has held none of the
occurrences below it, and taking out what does nothing takes no name out of force. -/

namespace PiCalculus.Process

variable {ν : Type} {label : ν → String} {drop : ν → Bool} {scope scope' inner inner' : Scope ν}
  {p body : Process ν} {n : ν}

/-- The names of the two scopes differ only for labels under which the first has a name that the
process does not use. -/
def SameInUse (label : ν → String) (p : Process ν) (scope scope' : Scope ν) : Prop :=
  ∀ n, scope'.lookup label n = scope.lookup label n ∨
    ∃ hidden, scope.lookup label n = some hidden ∧ hidden ∉ p.prefixNames

namespace SameInUse

theorem mono {q : Process ν} (h : SameInUse label p scope scope')
    (hsub : q.prefixNames ⊆ p.prefixNames) : SameInUse label q scope scope' := fun n =>
  (h n).imp_right fun ⟨hidden, hfound, hunused⟩ => ⟨hidden, hfound, fun hin => hunused (hsub hin)⟩

theorem resolve_eq (h : SameInUse label p scope scope') (hn : n ∈ p.prefixNames)
    (fixed : scope.resolve label n = n) : scope'.resolve label n = n := by
  rcases h n with hsame | ⟨hidden, hfound, hunused⟩
  · rwa [Scope.resolve, hsame]
  · rw [Scope.resolve, hfound, Option.getD_some] at fixed
    exact absurd (fixed ▸ hn) hunused

theorem restrict (h : SameInUse label p scope scope') (name : ν) :
    SameInUse label p (scope.restrict label name) (scope'.restrict label name) := by
  intro n
  rw [Scope.lookup_restrict, Scope.lookup_restrict]
  by_cases hname : label name = label n
  · simp [Scope.lookup, hname]
  · simpa [Scope.lookup, hname] using h n

/-- A restriction that is left out hides no name that is used below. -/
theorem unrestricted (h : SameInUse label p scope scope') {name : ν} (hname : name ∉ p.prefixNames) :
    SameInUse label p (scope.restrict label name) scope' := by
  intro n
  rw [Scope.lookup_restrict]
  by_cases hl : label name = label n
  · exact .inr ⟨name, by simp [Scope.lookup, hl], hname⟩
  · simpa [Scope.lookup, hl] using h n

theorem receive (h : SameInUse label p scope scope') (vars : List ν) :
    SameInUse label p (scope.receive label vars) (scope'.receive label vars) := by
  intro n
  rw [Scope.lookup_receive, Scope.lookup_receive, Scope.lookup_append, Scope.lookup_append]
  cases Scope.lookup label vars.reverse n with
  | some v => simp
  | none => simpa using h n

theorem withChannel (h : SameInUse label p scope scope') (chan : ν) :
    SameInUse label p (scope.withChannel label chan) (scope'.withChannel label chan) := by
  intro n
  rw [Scope.lookup_withChannel, Scope.lookup_withChannel]
  rcases h n with hsame | ⟨hidden, hfound, hunused⟩
  · exact .inl (by rw [hsame])
  · exact .inr ⟨hidden, by rw [hfound, Option.some_or], hunused⟩

end SameInUse

/-- Leaving out restrictions of unused names leaves what is bound as it is bound. -/
theorem bindIn_dropRestrictions (fixed : p.bindIn label scope = p) (unused : p.DropsUnused drop)
    (same : SameInUse label p scope scope') :
    (p.dropRestrictions drop).bindIn label scope' = p.dropRestrictions drop := by
  -- The scope of what is left lacks the names of the dropped restrictions, which nothing uses.
  induction p generalizing scope scope' with
  | nil => rw [dropRestrictions, bindIn]
  | send chan values =>
    rw [bindIn, send.injEq] at fixed
    obtain ⟨hchan, hvalues⟩ := fixed
    have hresolved : ∀ v ∈ values, scope.resolve label v = v := by
      intro v hv
      obtain ⟨i, hi⟩ := List.mem_iff_getElem?.mp hv
      have hget := congrArg (·[i]?) hvalues
      simpa [hi] using hget
    rw [dropRestrictions, bindIn, send.injEq]
    refine ⟨same.resolve_eq (by simp [prefixNames]) hchan, ?_⟩
    refine (List.map_congr_left fun v hv => ?_).trans (List.map_id' values)
    exact same.resolve_eq (by simp [prefixNames, hv]) (hresolved v hv)
  | receive chan vars body ih =>
    rw [bindIn, receive.injEq] at fixed
    obtain ⟨hchan, -, hbody⟩ := fixed
    rw [DropsUnused] at unused
    have hinner := same.receive vars
    have hsub : body.prefixNames ⊆ (Process.receive chan vars body).prefixNames := by
      rw [prefixNames]
      exact fun n hn => List.mem_cons_of_mem _ (List.mem_append_right _ hn)
    rw [dropRestrictions, bindIn, receive.injEq]
    refine ⟨hinner.resolve_eq (by simp [prefixNames]) hchan, rfl, ?_⟩
    exact ih hbody unused ((hinner.withChannel chan).mono hsub)
  | par ps ih =>
    rw [bindIn, par.injEq] at fixed
    rw [DropsUnused] at unused
    rw [dropRestrictions, bindIn, par.injEq, List.map_map]
    refine List.map_congr_left fun q hq => ih q hq ?_ (unused q hq) (same.mono fun n hn => ?_)
    · obtain ⟨i, hi⟩ := List.mem_iff_getElem?.mp hq
      have hget := congrArg (·[i]?) fixed
      simpa [hi] using hget
    · rw [prefixNames]
      exact List.mem_flatMap.mpr ⟨q, hq, hn⟩
  | replicate body ih =>
    rw [bindIn, replicate.injEq] at fixed
    rw [DropsUnused] at unused
    rw [dropRestrictions, bindIn, replicate.injEq]
    exact ih fixed unused (same.mono (by rw [prefixNames]; exact List.Subset.refl _))
  | restrict name body ih =>
    rw [bindIn, restrict.injEq] at fixed
    rw [DropsUnused] at unused
    have hbody : SameInUse label body scope scope' :=
      same.mono (by rw [prefixNames]; exact List.Subset.refl _)
    rw [dropRestrictions]
    split
    · next hdrop => exact ih fixed.2 unused.2 (hbody.unrestricted (unused.1 hdrop))
    · rw [bindIn, restrict.injEq]
      exact ⟨rfl, ih fixed.2 unused.2 (hbody.restrict name)⟩

theorem prune_bindIn (label : ν → String) (scope : Scope ν) (p : Process ν) :
    (p.bindIn label scope).prune = p.prune.bindIn label scope := by
  have hnil : ∀ (scope : Scope ν) (q : Process ν), (q.bindIn label scope).isNil = q.isNil := by
    intro scope q
    cases q <;> simp [bindIn, isNil]
  induction p generalizing scope with
  | nil => simp [bindIn, prune]
  | send chan values => simp [bindIn, prune]
  | receive chan vars body ih => rw [bindIn, prune, prune, bindIn, ih]
  | par ps ih =>
    have hmap : (ps.map (bindIn label scope)).map prune =
        (ps.map prune).map (bindIn label scope) := by
      rw [List.map_map, List.map_map]
      exact List.map_congr_left fun q hq => ih q hq scope
    rw [bindIn, prune, prune, hmap, List.filter_map]
    have hfilter : (fun q : Process ν => !q.isNil) ∘ bindIn label scope = fun q => !q.isNil := by
      funext q
      simp [hnil]
    rw [hfilter]
    -- What is left are no components, one or several, and binding does not change how many.
    generalize (ps.map prune).filter (fun q => !q.isNil) = qs
    rcases qs with _ | ⟨q, _ | ⟨r, rs⟩⟩
    · simp only [List.map_nil, bindIn]
    · rfl
    · simp only [List.map_cons, bindIn]
  | replicate body ih =>
    rw [bindIn, prune, prune, ih]
    cases body.prune <;> simp [bindIn]
  | restrict name body ih =>
    rw [bindIn, prune, prune, ih]
    cases body.prune <;> simp [bindIn]

theorem bind_simplify [DecidableEq ν] (label : ν → String) (p : Process ν) :
    (p.simplify label).bind label = p.simplify label := by
  have hsame : SameInUse label (p.bind label) [] [] := fun n => .inl rfl
  have hdropped := bindIn_dropRestrictions (bind_bind p) (dropsUnused (p.bind label)) hsame
  rw [bind, simplify, ← prune_bindIn, hdropped]

end PiCalculus.Process
