import Mathlib
import PiCalculus.Proofs.Process.Structure

/-! Processes up to renaming of their bound names. A process is read by putting for every label what
it refers to: the binder, by its depth, or itself. Two processes with one reading differ in the
labels of their binders only. -/

namespace PiCalculus

/-- What a label refers to at a place. -/
inductive Referent
  | free (label : String)
  /-- The binder that so many binders surround. -/
  | bound (depth : Nat)
deriving DecidableEq, Inhabited

/-- The last place of a label among the labels that a node binds. -/
def lastPlace? (label : String) : List String → Option Nat
  | [] => none
  | x :: xs =>
    match lastPlace? label xs with
    | some i => some (i + 1)
    | none => if x = label then some 0 else none

theorem lastPlace?_eq_none {label : String} {xs : List String} :
    lastPlace? label xs = none ↔ label ∉ xs := by
  induction xs with
  | nil => simp [lastPlace?]
  | cons x xs ih => grind [lastPlace?]

theorem mem_of_lastPlace? {label : String} {xs : List String} {i : Nat}
    (h : lastPlace? label xs = some i) : label ∈ xs := by
  by_contra hn
  simp [lastPlace?_eq_none.mpr hn] at h

theorem lastPlace?_lt {label : String} {xs : List String} {i : Nat}
    (h : lastPlace? label xs = some i) : i < xs.length := by
  induction xs generalizing i with
  | nil => simp [lastPlace?] at h
  | cons x xs ih => grind [lastPlace?]

/-- What every label refers to at a place. -/
abbrev Environment := String → Referent

namespace Environment

/-- The environment inside a node that binds labels; the last one of equal labels counts. -/
def enter (ρ : Environment) (depth : Nat) (xs : List String) : Environment := fun label =>
  match lastPlace? label xs with
  | some i => .bound (depth + i)
  | none => ρ label

/-- Whether all binders referred to are surrounded by less than so many. -/
def Below (ρ : Environment) (depth : Nat) : Prop := ∀ label i, ρ label = .bound i → i < depth

theorem below_free : Below Referent.free 0 := fun _ _ h => by cases h

theorem Below.enter {ρ : Environment} {depth : Nat} (h : ρ.Below depth) (xs : List String) :
    (ρ.enter depth xs).Below (depth + xs.length) := by
  intro label i hi
  unfold Environment.enter at hi
  split at hi
  · next j hj =>
    have := lastPlace?_lt hj
    injection hi
    omega
  · exact Nat.lt_add_right _ (h label i hi)

theorem enter_congr {ρ ρ' : Environment} {depth : Nat} {xs : List String} {l : String}
    (h : l ∉ xs → ρ l = ρ' l) : ρ.enter depth xs l = ρ'.enter depth xs l := by
  unfold enter
  cases hp : lastPlace? l xs with
  | none => exact h (lastPlace?_eq_none.mp hp)
  | some i => rfl

theorem enter_eq_free_iff {ρ : Environment} {depth : Nat} {xs : List String} {l m : String} :
    ρ.enter depth xs m = .free l ↔ m ∉ xs ∧ ρ m = .free l := by
  unfold enter
  cases h : lastPlace? m xs with
  | none => simp [lastPlace?_eq_none.mp h]
  | some i => simp [mem_of_lastPlace? h]

/-- A label of a node and another one refer to the same inside if they have the same place in the
node, or none and already refer to the same outside. -/
theorem enter_eq_enter_iff {ρ ρ' : Environment} {depth : Nat} (h : ρ.Below depth)
    (h' : ρ'.Below depth) {xs ys : List String} {l m : String} :
    ρ.enter depth xs l = ρ'.enter depth ys m ↔
      lastPlace? l xs = lastPlace? m ys ∧ (m ∉ ys → ρ l = ρ' m) := by
  unfold enter
  cases hl : lastPlace? l xs with
  | none =>
    cases hm : lastPlace? m ys with
    | none => simp [lastPlace?_eq_none.mp hm]
    | some j =>
      have hne : ρ l ≠ .bound (depth + j) := fun he => by have := h l _ he; omega
      simpa using hne
  | some i =>
    cases hm : lastPlace? m ys with
    | none =>
      have hne : ρ' m ≠ .bound (depth + i) := fun he => by have := h' m _ he; omega
      simpa using hne.symm
    | some j => simp [mem_of_lastPlace? hm]

end Environment

namespace Process

/-- The references of a node's binders. -/
def places (depth n : Nat) : List Referent := (List.range' depth n).map .bound

/-- Puts for every label what it refers to. -/
@[grind =] def read (ρ : Environment) (depth : Nat) : Process String → Process Referent
  | .nil => .nil
  | .send chan values => .send (ρ chan) (values.map ρ)
  | .receive chan vars body =>
    .receive (ρ chan) (places depth vars.length)
      (body.read (ρ.enter depth vars) (depth + vars.length))
  | .par ps => .par (ps.map (read ρ depth))
  | .replicate body => .replicate (body.read ρ depth)
  | .restrict name body =>
    .restrict (.bound depth) (body.read (ρ.enter depth [name]) (depth + 1))
termination_by p => sizeOf p

/-- A process without the labels of its binders. -/
def nameless (p : Process String) : Process Referent := p.read .free 0

/-- Whether two processes are the same up to renaming of bound names. -/
def AlphaEquivalent (p q : Process String) : Prop := p.nameless = q.nameless

theorem AlphaEquivalent.refl (p : Process String) : AlphaEquivalent p p := rfl

variable {ν : Type}

/-- Whether under the new labels every binder binds those names that it binds under the old ones. -/
@[grind =] def KeepsBinding (old new : ν → String) : Process ν → Prop
  | .nil | .send .. => True
  | .receive _ vars body =>
    (∀ n ∈ body.free old,
      lastPlace? (new n) (vars.map new) = lastPlace? (old n) (vars.map old)) ∧
    body.KeepsBinding old new
  | .par ps => ∀ p ∈ ps, p.KeepsBinding old new
  | .replicate body => body.KeepsBinding old new
  | .restrict name body =>
    (∀ n ∈ body.free old, new n = new name ↔ old n = old name) ∧ body.KeepsBinding old new
termination_by p => sizeOf p

open Environment

theorem lastPlace?_singleton_eq_iff {old new : ν → String} {n m : ν} :
    lastPlace? (new m) [new n] = lastPlace? (old m) [old n] ↔ (new m = new n ↔ old m = old n) := by
  simp only [lastPlace?]
  split <;> split <;> simp_all [eq_comm]

/-- Two labellings of a process read alike exactly if every binder binds the same names under both,
and the names that are free refer to the same. -/
theorem read_map_eq_iff {old new : ν → String} (p : Process ν) {ρ ρ' : Environment} {depth : Nat}
    (h : ρ.Below depth) (h' : ρ'.Below depth) :
    (p.map new).read ρ' depth = (p.map old).read ρ depth ↔
      p.KeepsBinding old new ∧ ∀ n ∈ p.free old, ρ' (new n) = ρ (old n) := by
  induction p generalizing ρ ρ' depth with
  | nil => simp [map, read, KeepsBinding, free]
  | send chan values =>
    simp only [map, read, KeepsBinding, free, send.injEq, List.map_map, List.map_inj_left, true_and,
      List.forall_mem_cons, Function.comp_apply]
  | receive chan vars body ih =>
    simp only [map, read, KeepsBinding, free, List.length_map, receive.injEq, true_and]
    -- A free name of the body has the same place among the variables, or is in none of them and
    -- is read alike outside.
    rw [ih (by simpa using h.enter (vars.map old)) (by simpa using h'.enter (vars.map new))]
    simp only [enter_eq_enter_iff h' h]
    simp only [List.forall_mem_cons, List.mem_filter, decide_eq_true_eq]
    constructor
    · rintro ⟨hc, hk, hb⟩
      exact ⟨⟨fun n hn => (hb n hn).1, hk⟩, hc, fun n hn => (hb n hn.1).2 hn.2⟩
    · rintro ⟨⟨hb, hk⟩, hc, ho⟩
      exact ⟨hc, hk, fun n hn => ⟨hb n hn, fun hm => ho n ⟨hn, hm⟩⟩⟩
  | par ps ih =>
    simp only [map, read, KeepsBinding, free, par.injEq, List.map_map, List.map_inj_left,
      List.mem_flatMap, Function.comp_apply]
    constructor
    · intro hp
      refine ⟨fun p hm => ((ih p hm h h').mp (hp p hm)).1, ?_⟩
      rintro n ⟨p, hm, hn⟩
      exact ((ih p hm h h').mp (hp p hm)).2 n hn
    · rintro ⟨hk, ho⟩ p hm
      exact (ih p hm h h').mpr ⟨hk p hm, fun n hn => ho n ⟨p, hm, hn⟩⟩
  | replicate body ih =>
    simpa only [map, read, KeepsBinding, free, replicate.injEq] using ih h h'
  | restrict name body ih =>
    simp only [map, read, KeepsBinding, free, restrict.injEq, true_and]
    have hbody := ih (h.enter [old name]) (h'.enter [new name])
    rw [List.length_singleton] at hbody
    rw [hbody]
    simp only [enter_eq_enter_iff h' h, lastPlace?_singleton_eq_iff, List.mem_singleton,
      List.mem_filter, decide_eq_true_eq, ne_eq]
    constructor
    · rintro ⟨hk, hb⟩
      exact ⟨⟨fun n hn => (hb n hn).1, hk⟩, fun n hn => (hb n hn.1).2 hn.2⟩
    · rintro ⟨⟨hb, hk⟩, ho⟩
      exact ⟨hk, fun n hn => ⟨hb n hn, fun hm => ho n ⟨hn, hm⟩⟩⟩

theorem lastPlace?_map_eq {old new : ν → String} {n : ν} {vars : List ν}
    (h : ∀ v ∈ vars, new n = new v ↔ old n = old v) :
    lastPlace? (new n) (vars.map new) = lastPlace? (old n) (vars.map old) := by
  induction vars with
  | nil => rfl
  | cons v vars ih =>
    obtain ⟨hv, hvars⟩ := List.forall_mem_cons.mp h
    rw [List.map_cons, List.map_cons, lastPlace?, lastPlace?, ih hvars]
    simp only [eq_comm (b := new n), eq_comm (b := old n), hv]

/-- Binding is kept if no used name comes to have or ceases to have the label of a binder. -/
theorem keepsBinding_of_iff {old new : ν → String} {p : Process ν}
    (h : ∀ b ∈ p.binders, ∀ n ∈ p.usedNames, new n = new b ↔ old n = old b) :
    p.KeepsBinding old new := by
  induction p with
  | nil => simp [KeepsBinding]
  | send chan values => simp [KeepsBinding]
  | receive chan vars body ih =>
    rw [binders, usedNames] at h
    rw [KeepsBinding]
    refine ⟨fun n hn => lastPlace?_map_eq fun v hv => ?_, ih fun b hb n hn => ?_⟩
    · exact h v (List.mem_append_left _ hv) n
        (List.mem_cons_of_mem _ (body.free_subset_usedNames old hn))
    · exact h b (List.mem_append_right _ hb) n (List.mem_cons_of_mem _ hn)
  | par ps ih =>
    rw [binders, usedNames] at h
    rw [KeepsBinding]
    exact fun p hp => ih p hp fun b hb n hn =>
      h b (List.mem_flatMap.mpr ⟨p, hp, hb⟩) n (List.mem_flatMap.mpr ⟨p, hp, hn⟩)
  | replicate body ih =>
    rw [binders, usedNames] at h
    rw [KeepsBinding]
    exact ih h
  | restrict name body ih =>
    rw [binders, usedNames] at h
    rw [KeepsBinding]
    refine ⟨fun n hn => h name List.mem_cons_self n (body.free_subset_usedNames old hn),
      ih fun b hb => h b (List.mem_cons_of_mem _ hb)⟩

theorem read_congr {p : Process String} {ρ ρ' : Environment} {depth : Nat}
    (h : ∀ l ∈ p.freeLabels, ρ l = ρ' l) : p.read ρ depth = p.read ρ' depth := by
  unfold freeLabels at h
  induction p generalizing ρ ρ' depth with
  | nil => simp [read]
  | send chan values =>
    simp only [free, List.forall_mem_cons] at h
    simp [read, h.1, List.map_congr_left h.2]
  | receive chan vars body ih =>
    simp only [free, List.forall_mem_cons, List.mem_filter, List.map_id] at h
    simp only [read, h.1, receive.injEq, true_and]
    exact ih fun l hl => enter_congr fun hv => h.2 l ⟨hl, by simpa using hv⟩
  | par ps ih =>
    simp only [read, par.injEq]
    exact List.map_congr_left fun p hp => ih p hp fun l hl => h l (by
      rw [free]
      exact List.mem_flatMap.mpr ⟨p, hp, hl⟩)
  | replicate body ih =>
    simp only [read, replicate.injEq]
    exact ih (by simpa [free] using h)
  | restrict name body ih =>
    simp only [free, List.mem_filter] at h
    simp only [read, restrict.injEq, true_and]
    exact ih fun l hl => enter_congr fun hn => h l ⟨hl, by simpa using hn⟩

/-- The labels that are read as free are those that are free and refer to themselves. -/
theorem free_mem_read {p : Process String} {ρ : Environment} {depth : Nat} {l : String} :
    .free l ∈ (p.read ρ depth).occurrences ↔ ∃ m ∈ p.freeLabels, ρ m = .free l := by
  unfold freeLabels
  induction p generalizing ρ depth with
  | nil => simp [read, occurrences, free]
  | send chan values => simp [read, occurrences, free, eq_comm]
  | receive chan vars body ih =>
    have hp : ∀ d k, Referent.free l ∉ places d k := by simp [places]
    simp only [read, occurrences, free, List.mem_cons, List.mem_append, hp, false_or, ih,
      List.mem_filter, List.map_id, decide_eq_true_eq, id_eq]
    simp only [enter_eq_free_iff]
    grind
  | par ps ih =>
    simp only [read, occurrences, free, List.mem_flatMap, List.mem_map]
    grind
  | replicate body ih => simpa only [read, occurrences, free] using ih
  | restrict name body ih =>
    simp only [read, occurrences, free, List.mem_cons, reduceCtorEq, false_or, ih, List.mem_filter,
      decide_eq_true_eq, id_eq, enter_eq_free_iff]
    grind

theorem AlphaEquivalent.mem_freeLabels {p q : Process String} (h : AlphaEquivalent p q)
    {l : String} : l ∈ p.freeLabels ↔ l ∈ q.freeLabels := by
  have key : ∀ r : Process String, l ∈ r.freeLabels ↔ .free l ∈ r.nameless.occurrences := by
    intro r
    rw [nameless, free_mem_read]
    simp
  rw [key p, key q, h]

end Process
end PiCalculus
