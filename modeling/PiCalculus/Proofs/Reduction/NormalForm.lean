import Mathlib
import PiCalculus.Proofs.Binding.Stable
import PiCalculus.Proofs.Operation.Runs
import PiCalculus.Proofs.Process.Places
import PiCalculus.Proofs.Reduction.Retained

/-! Tidying up comes to an end at once. What it leaves has nothing more to take out, so that it is left
alone when it is tidied up again: the restrictions that stay are used in their bodies, and leaving out
others or taking out `0` does not change that. -/

namespace PiCalculus.Process

variable {ν : Type} {drop : ν → Bool} {p body : Process ν} {name : ν}

/-- Whether a restriction at the root is used below it. -/
def UsesRestricted : Process ν → Prop
  | .restrict name body => name ∈ body.usedNames
  | _ => True

/-- Whether nothing can be taken out at the root: a restriction is used and does not stand over `0`,
nor does a replication, and a composition has two components at least and no `0` among them. -/
def IsTidy : Process ν → Prop
  | .restrict name body => name ∈ body.usedNames ∧ body ≠ .nil
  | .replicate body => body ≠ .nil
  | .par ps => 2 ≤ ps.length ∧ .nil ∉ ps
  | _ => True

/-- If only restrictions of unused names are kept back, all that are left are used. -/
theorem usesRestricted_dropRestrictions
    (h : p.Everywhere fun q =>
      ∀ name body, q = .restrict name body → name ∉ body.usedNames → drop name) :
    (p.dropRestrictions drop).Everywhere UsesRestricted := by
  induction p with
  | nil =>
    rw [dropRestrictions, everywhere_nil]
    trivial
  | send chan values =>
    rw [dropRestrictions, everywhere_send]
    trivial
  | receive chan vars body ih =>
    rw [everywhere_receive] at h
    rw [dropRestrictions, everywhere_receive]
    exact ⟨trivial, ih h.2⟩
  | par ps ih =>
    rw [everywhere_par] at h
    rw [dropRestrictions, everywhere_par, List.forall_mem_map]
    exact ⟨trivial, fun q hq => ih q hq (h.2 q hq)⟩
  | replicate body ih =>
    rw [everywhere_replicate] at h
    rw [dropRestrictions, everywhere_replicate]
    exact ⟨trivial, ih h.2⟩
  | restrict name body ih =>
    rw [everywhere_restrict] at h
    rw [dropRestrictions]
    split
    · exact ih h.2
    · next hkept =>
      rw [everywhere_restrict]
      refine ⟨?_, ih h.2⟩
      rw [UsesRestricted, usedNames_dropRestrictions]
      by_contra hunused
      exact hkept (h.1 name body rfl hunused)

theorem isTidy_prune (h : p.Everywhere UsesRestricted) : p.prune.Everywhere IsTidy := by
  have hzero : (nil : Process ν).Everywhere IsTidy :=
    everywhere_nil.mpr trivial
  induction p with
  | nil => rwa [prune]
  | send chan values =>
    rw [prune, everywhere_send]
    trivial
  | receive chan vars body ih =>
    rw [everywhere_receive] at h
    rw [prune, everywhere_receive]
    exact ⟨trivial, ih h.2⟩
  | par ps ih =>
    rw [everywhere_par] at h
    have hkept : ∀ q ∈ (ps.map prune).filter (!·.isNil), q ≠ .nil ∧ q.Everywhere IsTidy := by
      intro q hq
      obtain ⟨hmem, hq⟩ := List.mem_filter.mp hq
      obtain ⟨r, hr, rfl⟩ := List.mem_map.mp hmem
      refine ⟨fun hnil => ?_, ih r hr (h.2 r hr)⟩
      rw [hnil] at hq
      cases hq
    rw [prune]
    split
    · exact hzero
    · next q hone => exact (hkept q (hone ▸ List.mem_singleton_self q)).2
    · next qs hnone hone =>
      rw [everywhere_par]
      refine ⟨⟨?_, fun hnil => (hkept _ hnil).1 rfl⟩, fun q hq => (hkept q hq).2⟩
      -- Fewer than two components are not left as a composition.
      by_contra hfew
      have hone_le := Nat.le_of_lt_succ (Nat.not_le.mp hfew)
      obtain hlength | hlength := Nat.le_one_iff_eq_zero_or_eq_one.mp hone_le
      · exact hnone (List.length_eq_zero_iff.mp hlength)
      · obtain ⟨q, hq⟩ := List.length_eq_one_iff.mp hlength
        exact hone q hq
  | replicate body ih =>
    rw [everywhere_replicate] at h
    have hbody := ih h.2
    rw [prune]
    split
    · exact hzero
    · next hne =>
      rw [everywhere_replicate]
      exact ⟨hne, hbody⟩
  | restrict name body ih =>
    rw [everywhere_restrict] at h
    have hbody := ih h.2
    rw [prune]
    split
    · exact hzero
    · next hne =>
      rw [everywhere_restrict]
      refine ⟨⟨?_, hne⟩, hbody⟩
      rw [usedNames_prune]
      exact h.1

theorem dropRestrictions_eq_self (h : p.Everywhere IsTidy) (unused : p.DropsUnused drop) :
    p.dropRestrictions drop = p := by
  induction p with
  | nil => rw [dropRestrictions]
  | send chan values => rw [dropRestrictions]
  | receive chan vars body ih =>
    rw [everywhere_receive] at h
    rw [DropsUnused] at unused
    rw [dropRestrictions, ih h.2 unused]
  | par ps ih =>
    rw [everywhere_par] at h
    rw [DropsUnused] at unused
    rw [dropRestrictions, par.injEq]
    exact (List.map_congr_left fun q hq => ih q hq (h.2 q hq) (unused q hq)).trans (List.map_id' ps)
  | replicate body ih =>
    rw [everywhere_replicate] at h
    rw [DropsUnused] at unused
    rw [dropRestrictions, ih h.2 unused]
  | restrict name body ih =>
    rw [everywhere_restrict] at h
    rw [DropsUnused] at unused
    rw [dropRestrictions, ih h.2 unused.2]
    split
    · next hdrop =>
      exact absurd (body.usedNames_subset_prefixNames h.1.1) (unused.1 hdrop)
    · rfl

theorem prune_eq_self (h : p.Everywhere IsTidy) : p.prune = p := by
  induction p with
  | nil => rw [prune]
  | send chan values => rw [prune]
  | receive chan vars body ih =>
    rw [everywhere_receive] at h
    rw [prune, ih h.2]
  | par ps ih =>
    rw [everywhere_par] at h
    obtain ⟨⟨hlength, hnil⟩, hps⟩ := h
    have hmap : ps.map prune = ps :=
      (List.map_congr_left fun q hq => ih q hq (hps q hq)).trans (List.map_id' ps)
    have hfilter : ps.filter (!·.isNil) = ps := by
      refine List.filter_eq_self.mpr fun q hq => ?_
      cases q with
      | nil => exact absurd hq hnil
      | _ => rfl
    rw [prune, hmap, hfilter]
    split
    · simp at hlength
    · simp at hlength
    · rfl
  | replicate body ih =>
    rw [everywhere_replicate] at h
    rw [prune, ih h.2]
    split
    · exact absurd rfl h.1
    · rfl
  | restrict name body ih =>
    rw [everywhere_restrict] at h
    rw [prune, ih h.2]
    split
    · exact absurd rfl h.1.2
    · rfl

theorem mem_restrictedNames_iff : name ∈ p.restrictedNames ↔
    .restricted name ∈ p.rootMentions ∨ ∃ q ∈ p.children, name ∈ q.restrictedNames := by
  cases p <;> simp [restrictedNames, rootMentions, children, rootNames, or_comm, eq_comm]

theorem restricted_mem_mentions {place : List Nat} (hat : p.at? place = some (.restrict name body)) :
    .restricted name ∈ p.mentions := by
  have hmem : name ∈ p.restrictedNames :=
    (exists_at?_iff (fun _ => mem_restrictedNames_iff) p).mp
      ⟨place, _, hat, by simp [rootMentions]⟩
  rw [mentions, List.mem_flatMap, exists_mem_breadthFirst fun _ => mem_restrictedNames_iff]
  exact hmem

theorem countP_mentions [DecidableEq ν] (p : Process ν) (n : ν) :
    p.mentions.countP (·.name = n) = p.occurrences.count n := by
  have hroot : ∀ q : Process ν, q.rootMentions.map Mention.name = q.rootNames := by
    intro q
    cases q <;> simp [rootMentions, rootNames, Mention.name, Function.comp_def]
  have hwalk : p.mentions.map Mention.name = p.walk := by
    rw [mentions, walk, List.map_flatMap]
    exact List.flatMap_congr fun q _ => hroot q
  have hcount : p.mentions.countP (·.name = n) = (p.mentions.map Mention.name).count n := by
    rw [List.count, List.countP_map]
    rfl
  rw [hcount, hwalk]
  exact (gathers_occurrences.breadthFirst_perm p).count_eq n

theorem mem_binders_of_at?_restrict {place : List Nat}
    (hat : p.at? place = some (.restrict name body)) : name ∈ p.binders := by
  refine gathers_binders.subset_of_at? hat ?_
  rw [binders]
  exact List.mem_cons_self

/-- A restriction of a name that is introduced once and never used is found to be unused. -/
theorem isUnused_of_notMem_usedNames [DecidableEq ν] {place : List Nat} (nodup : p.binders.Nodup)
    (hat : p.at? place = some (.restrict name body)) (hunused : name ∉ p.usedNames) :
    isUnused p.mentions name := by
  have hmention := restricted_mem_mentions hat
  have hcount : p.mentions.countP (·.name = name) = 1 := by
    rw [countP_mentions, p.occurrences_perm.count_eq, List.count_append,
      List.count_eq_one_of_mem nodup (mem_binders_of_at?_restrict hat), List.count_eq_zero_of_not_mem hunused]
  rw [isUnused, decide_eq_true_eq]
  refine Nat.le_antisymm (hcount ▸ (List.dropWhile_sublist _).countP_le) ?_
  exact List.countP_pos_iff.mpr ⟨_, restricted_mem_dropWhile hmention, by simp [Mention.name]⟩

/-- A name is used nowhere but in the body of its restriction. -/
theorem Orderly.mem_usedNames_of_at? {place : List Nat} (h : p.Orderly)
    (hat : p.at? place = some (.restrict name body)) (hn : name ∈ p.usedNames) :
    name ∈ body.usedNames := by
  have hown : name ∈ (Process.restrict name body).binders := by
    rw [binders]
    exact List.mem_cons_self
  have houtside := h.contained.notMem_outside (by simpa using h.nodup) hat hown
    (mem_binders_of_at?_restrict hat)
  obtain ⟨outside, hself, hput⟩ := gathers_usedNames.replaceAt_perm hat
  rcases List.mem_append.mp (hself.subset hn) with hout | hin
  · have hleft := (hput nil).symm.subset (List.mem_append_left _ hout)
    exact absurd (usedNames_subset_occurrences _ hleft) houtside
  · rwa [usedNames] at hin

variable [DecidableEq ν] {label : ν → String}

theorem Orderly.isTidy_simplify (h : p.Orderly) : (p.simplify label).Everywhere IsTidy := by
  have hbound := h.bind label
  refine isTidy_prune (usesRestricted_dropRestrictions fun place q hat name body heq hunused => ?_)
  subst heq
  refine isUnused_of_notMem_usedNames hbound.nodup hat fun hn => ?_
  exact hunused (hbound.mem_usedNames_of_at? hat hn)

/-- What is bound and has nothing to take out is left alone. -/
theorem simplify_eq_self (h : p.Everywhere IsTidy) (bound : p.bind label = p) :
    p.simplify label = p := by
  rw [simplify, bound, dropRestrictions_eq_self h (dropsUnused p), prune_eq_self h]

end PiCalculus.Process

namespace PiCalculus.Program

open Process

/-- Whatever has been done to a program that was read, tidying it up leaves a normal form, which stays
the same with all its names when it is tidied up again. -/
theorem runAll_simplify_isTidy {source : String} {p : Program}
    (parsed : Program.parse source = .ok p) (ops : List Operation) :
    let tidy := ((p.runAll ops).run .simplify).1
    tidy.process.Everywhere IsTidy ∧ (tidy.run .simplify).1 = tidy := by
  have horderly := (Orderly.of_parse parsed).runAll ops
  generalize p.runAll ops = q at horderly
  intro tidy
  have hprocess : tidy.process = q.process.simplify q.store.label := rfl
  have hlabel : ∀ n ∈ tidy.process.occurrences, tidy.store.label n = q.store.label n :=
    fun n hn => q.store.label_retain hn
  have htidy : tidy.process.Everywhere IsTidy := horderly.isTidy_simplify
  -- A name that is left keeps its label, so tidying up again goes by the same labels.
  have hsame : tidy.process.simplify tidy.store.label = tidy.process := by
    rw [simplify_congr hlabel]
    exact simplify_eq_self htidy (bind_simplify _ _)
  refine ⟨htidy, ?_⟩
  have hagain : (tidy.run .simplify).1 = ⟨tidy.process.simplify tidy.store.label,
      tidy.store.retain (tidy.process.simplify tidy.store.label).occurrences⟩ := rfl
  rw [hagain, hsame]
  have hstore : tidy.store.retain tidy.process.occurrences = tidy.store :=
    (q.store.agreesOn_retain tidy.process.occurrences).retain_eq.symm
  rw [hstore]

/-- The name that was sent is used by its restriction now, and all else is taken out. -/
theorem runAll_simplify_isTidy_sent :
    ∃ p, Program.parse "(new c)(new d)(c<d> | c(x).(!(new e)0 | x<>))" = .ok p ∧
      let tidy := ((p.runAll [.bind, .reduceOnce]).run .simplify).1
      tidy.calculi = "(new d)d<>" ∧ tidy.process.Everywhere IsTidy ∧
        (tidy.run .simplify).1 = tidy := by
  obtain ⟨p, parsed, htext⟩ : ∃ p,
      Program.parse "(new c)(new d)(c<d> | c(x).(!(new e)0 | x<>))" = .ok p ∧
      ((p.runAll [.bind, .reduceOnce]).run .simplify).1.calculi = "(new d)d<>" := by
    decide +kernel
  exact ⟨p, parsed, htext, runAll_simplify_isTidy parsed [.bind, .reduceOnce]⟩

end PiCalculus.Program
