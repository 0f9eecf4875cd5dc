import Mathlib
import PiCalculus.Proofs.Process.Structure
import PiCalculus.Reduction.Congruence

/-! What is met on the way through a process, generation by generation: everything in it, and behind
every restriction everything in its body. -/

namespace PiCalculus.Process

variable {ν : Type}

theorem height_lt_of_mem_children {p q : Process ν} (h : q ∈ p.children) : q.height < p.height := by
  cases p with
  | nil => cases h
  | send chan values => cases h
  | par ps =>
    rw [children] at h
    rw [height, Nat.lt_succ_iff]
    induction ps with
    | nil => cases h
    | cons p ps ih =>
      rw [List.map_cons, List.foldr_cons]
      rcases List.mem_cons.mp h with rfl | h
      · exact Nat.le_max_left ..
      · exact (ih h).trans (Nat.le_max_right ..)
  | receive chan vars body =>
    obtain rfl := List.mem_singleton.mp h
    simp [height]
  | replicate body =>
    obtain rfl := List.mem_singleton.mp h
    simp [height]
  | restrict name body =>
    obtain rfl := List.mem_singleton.mp h
    simp [height]

theorem height_children_le {ps : List (Process ν)} {n : Nat} (h : ∀ p ∈ ps, p.height ≤ n + 1) :
    ∀ p ∈ ps.flatMap children, p.height ≤ n := by
  intro p hp
  obtain ⟨q, hq, hc⟩ := List.mem_flatMap.mp hp
  have := height_lt_of_mem_children hc
  have := h q hq
  omega

theorem height_pos (p : Process ν) : 0 < p.height := by
  cases p <;> simp [height]

/-- What holds in a process if it holds at a node of it is found at some node that is met. -/
theorem exists_mem_generations {atRoot inside : Process ν → Prop}
    (h : ∀ p, inside p ↔ atRoot p ∨ ∃ q ∈ p.children, inside q) {n : Nat}
    {ps : List (Process ν)} (hps : ∀ p ∈ ps, p.height ≤ n) :
    (∃ p ∈ generations n ps, atRoot p) ↔ ∃ p ∈ ps, inside p := by
  induction n generalizing ps with
  | zero =>
    have hnone : ∀ p, p ∉ ps := fun p hp => by
      have := hps p hp
      have := p.height_pos
      omega
    simp [generations, hnone]
  | succ n ih =>
    -- A generation is what stands at the roots, and the others are those of all the children.
    have hchildren := ih (height_children_le hps)
    simp only [generations, List.mem_append, or_and_right, exists_or, hchildren, List.mem_flatMap]
    constructor
    · rintro (⟨p, hp, hr⟩ | ⟨q, ⟨p, hp, hq⟩, hi⟩)
      · exact ⟨p, hp, (h p).mpr (.inl hr)⟩
      · exact ⟨p, hp, (h p).mpr (.inr ⟨q, hq, hi⟩)⟩
    · rintro ⟨p, hp, hi⟩
      rcases (h p).mp hi with hr | ⟨q, hq, hi⟩
      · exact .inl ⟨p, hp, hr⟩
      · exact .inr ⟨q, ⟨p, hp, hq⟩, hi⟩

theorem exists_mem_breadthFirst {atRoot inside : Process ν → Prop}
    (h : ∀ p, inside p ↔ atRoot p ∨ ∃ q ∈ p.children, inside q) (p : Process ν) :
    (∃ q ∈ p.breadthFirst, atRoot q) ↔ inside p := by
  have hheight : ∀ q ∈ [p], q.height ≤ p.height := by simp
  rw [breadthFirst, exists_mem_generations h hheight]
  simp

theorem mem_occurrences_iff {p : Process ν} {n : ν} :
    n ∈ p.occurrences ↔ n ∈ p.rootNames ∨ ∃ q ∈ p.children, n ∈ q.occurrences := by
  cases p <;> simp [occurrences, rootNames, children, or_assoc]

theorem mem_walk {p : Process ν} {n : ν} : n ∈ p.walk ↔ n ∈ p.occurrences := by
  have h : ∀ p : Process ν, _ := fun p => p.mem_occurrences_iff (n := n)
  rw [walk, List.mem_flatMap, exists_mem_breadthFirst h]

theorem used_mem_mentions {n : Nat} {ps : List (Process ν)} (hps : ∀ p ∈ ps, p.height ≤ n) {m : ν} :
    .used m ∈ (generations n ps).flatMap rootMentions ↔ ∃ p ∈ ps, m ∈ p.prefixNames := by
  have h : ∀ p : Process ν,
      m ∈ p.prefixNames ↔ .used m ∈ p.rootMentions ∨ ∃ q ∈ p.children, m ∈ q.prefixNames :=
    fun p => by
      cases p <;> simp [prefixNames, rootMentions, rootNames, children, or_assoc, eq_comm]
  rw [List.mem_flatMap, exists_mem_generations h hps]

theorem usedNames_dropRestrictions (drop : ν → Bool) (p : Process ν) :
    (p.dropRestrictions drop).usedNames = p.usedNames := by
  induction p with
  | par ps ih =>
    rw [dropRestrictions, usedNames, usedNames, List.flatMap_map]
    exact List.flatMap_congr ih
  | restrict name body ih =>
    rw [dropRestrictions, usedNames, ← ih]
    split
    · rfl
    · rw [usedNames]
  | _ => simp_all [dropRestrictions, usedNames]

/-- Whether only names are dropped that are not used below their restriction. -/
@[grind =] def DropsUnused (drop : ν → Bool) : Process ν → Prop
  | .nil | .send .. => True
  | .receive _ _ body | .replicate body => body.DropsUnused drop
  | .par ps => ∀ p ∈ ps, p.DropsUnused drop
  | .restrict name body => (drop name → name ∉ body.prefixNames) ∧ body.DropsUnused drop
termination_by p => sizeOf p

/-- A process of a generation whose mentions and those of the later ones are the last. -/
structure IsAhead (mentions : List (Mention ν)) (p : Process ν) (ps : List (Process ν)) (n : Nat)
    (before : List (Mention ν)) : Prop where
  mem : p ∈ ps
  height_le : ∀ q ∈ ps, q.height ≤ n + 1
  mentions_eq : mentions = before ++ (generations (n + 1) ps).flatMap rootMentions

variable {mentions before : List (Mention ν)} {p q : Process ν} {ps : List (Process ν)} {n : Nat}

theorem IsAhead.eq_append (h : IsAhead mentions p ps n before) :
    mentions = (before ++ ps.flatMap rootMentions) ++
      (generations n (ps.flatMap children)).flatMap rootMentions := by
  rw [h.mentions_eq, generations, List.flatMap_append, List.append_assoc]

theorem IsAhead.child (h : IsAhead mentions p ps n before) (hq : q ∈ p.children) :
    ∃ m, IsAhead mentions q (ps.flatMap children) m (before ++ ps.flatMap rootMentions) := by
  have hmem : q ∈ ps.flatMap children := List.mem_flatMap.mpr ⟨p, h.mem, hq⟩
  have hlow := height_children_le h.height_le
  obtain ⟨m, rfl⟩ : ∃ m, n = m + 1 := by
    have := hlow q hmem
    have := q.height_pos
    exact ⟨n - 1, by omega⟩
  exact ⟨m, hmem, hlow, h.eq_append⟩

variable [DecidableEq ν]

theorem restricted_mem_dropWhile {name : ν} {mentions : List (Mention ν)}
    (h : .restricted name ∈ mentions) :
    .restricted name ∈ mentions.dropWhile (· ≠ .restricted name) := by
  induction mentions with
  | nil => cases h
  | cons m mentions ih =>
    by_cases hm : m = .restricted name
    · simp [hm]
    · simpa [hm] using ih ((List.mem_cons.mp h).resolve_left (Ne.symm hm))

/-- A name that is unused by its mentions is not used after its first restriction. -/
theorem notMem_of_isUnused {before after : List (Mention ν)} {name : ν}
    (h : isUnused (before ++ after) name) (hn : .restricted name ∈ before) :
    .used name ∉ after := by
  intro hu
  rw [isUnused, decide_eq_true_eq, List.dropWhile_append] at h
  have hcut := restricted_mem_dropWhile hn
  have hbefore : 0 < (before.dropWhile (· ≠ .restricted name)).countP (·.name = name) :=
    List.countP_pos_iff.mpr ⟨_, hcut, by simp [Mention.name]⟩
  have hafter : 0 < after.countP (·.name = name) :=
    List.countP_pos_iff.mpr ⟨_, hu, by simp [Mention.name]⟩
  rw [if_neg (by simpa using List.ne_nil_of_mem hcut), List.countP_append] at h
  omega

theorem IsAhead.notMem {name : ν} {body : Process ν}
    (h : IsAhead mentions (.restrict name body) ps n before) (hu : isUnused mentions name) :
    name ∉ body.prefixNames := by
  intro hn
  rw [h.eq_append] at hu
  refine notMem_of_isUnused hu (List.mem_append_right _ ?_) ?_
  · exact List.mem_flatMap.mpr ⟨_, h.mem, by simp [rootMentions]⟩
  · exact (used_mem_mentions (height_children_le h.height_le)).mpr
      ⟨body, List.mem_flatMap.mpr ⟨_, h.mem, by simp [children]⟩, hn⟩

theorem IsAhead.dropsUnused (h : IsAhead mentions p ps n before) :
    p.DropsUnused (isUnused mentions) := by
  induction p generalizing ps n before with
  | nil => simp [DropsUnused]
  | send chan values => simp [DropsUnused]
  | receive chan vars body ih =>
    rw [DropsUnused]
    obtain ⟨m, hbody⟩ := h.child (List.mem_singleton_self body)
    exact ih hbody
  | par qs ih =>
    rw [DropsUnused]
    intro q hq
    obtain ⟨m, hq'⟩ := h.child (q := q) hq
    exact ih q hq hq'
  | replicate body ih =>
    rw [DropsUnused]
    obtain ⟨m, hbody⟩ := h.child (List.mem_singleton_self body)
    exact ih hbody
  | restrict name body ih =>
    rw [DropsUnused]
    obtain ⟨m, hbody⟩ := h.child (List.mem_singleton_self body)
    exact ⟨h.notMem, ih hbody⟩

theorem dropsUnused (p : Process ν) : p.DropsUnused (isUnused p.mentions) := by
  obtain ⟨n, hn⟩ : ∃ n, p.height = n + 1 := ⟨p.height - 1, by have := p.height_pos; omega⟩
  have h : IsAhead p.mentions p [p] n [] := by
    refine ⟨List.mem_singleton_self p, fun q hq => ?_, ?_⟩
    · rw [List.mem_singleton.mp hq, hn]
    · rw [Process.mentions, breadthFirst, hn, List.nil_append]
  exact h.dropsUnused

end PiCalculus.Process
