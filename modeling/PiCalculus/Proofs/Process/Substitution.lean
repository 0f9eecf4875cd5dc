import Mathlib
import PiCalculus.Proofs.Process.Alpha

/-! Capture-avoiding substitution of labels for free labels, all at once. Every binder on the way
down takes a label that is not put anywhere below it. -/

namespace PiCalculus

/-- So many different labels that are longer than those to avoid. -/
def freshLabels (avoid : List String) (n : Nat) : List String :=
  let longest := (avoid.map String.length).foldr max 0
  (List.range' (longest + 1) n).map fun k => String.ofList (List.replicate k 'x')

theorem length_freshLabels (avoid : List String) (n : Nat) : (freshLabels avoid n).length = n := by
  simp [freshLabels]

theorem freshLabels_nodup (avoid : List String) (n : Nat) : (freshLabels avoid n).Nodup := by
  refine List.Nodup.map (fun k m h => ?_) List.nodup_range'
  simpa using congrArg String.length h

theorem length_le_longest {avoid : List String} {l : String} (h : l ∈ avoid) :
    l.length ≤ (avoid.map String.length).foldr max 0 := by
  induction avoid with
  | nil => simp at h
  | cons a as ih =>
    simp only [List.map_cons, List.foldr_cons]
    rcases List.mem_cons.mp h with rfl | h
    · exact le_max_left ..
    · exact (ih h).trans (le_max_right ..)

theorem notMem_freshLabels {avoid : List String} {n : Nat} {l : String} (h : l ∈ avoid) :
    l ∉ freshLabels avoid n := by
  intro hl
  obtain ⟨k, hk, rfl⟩ := List.mem_map.mp hl
  have hlong := length_le_longest h
  have := List.mem_range'_1.mp hk
  simp at hlong
  omega

theorem lastPlace?_getElem {xs : List String} (h : xs.Nodup) {i : Nat} (hi : i < xs.length) :
    lastPlace? xs[i] xs = some i := by
  induction xs generalizing i with
  | nil => simp at hi
  | cons x xs ih =>
    obtain ⟨hx, hxs⟩ := List.nodup_cons.mp h
    cases i with
    | zero => simp [lastPlace?, lastPlace?_eq_none.mpr hx]
    | succ i =>
      have := ih hxs (by simpa using hi)
      simp [lastPlace?, this]

/-- Inside a node, the labels that it binds become its new ones; the last of equal ones counts. -/
def relabelInside (σ : String → String) (xs ys : List String) (label : String) : String :=
  match lastPlace? label xs with
  | some i => ys.getD i label
  | none => σ label

/-- New labels of a node that are put nowhere inside bind there what its labels have bound. -/
theorem enter_relabelInside {σ : String → String} {ρ : Environment} {depth : Nat}
    {xs ys : List String} {l : String} (hlen : ys.length = xs.length) (hys : ys.Nodup)
    (hl : σ l ∉ ys) :
    ρ.enter depth ys (relabelInside σ xs ys l) = Environment.enter (ρ ∘ σ) depth xs l := by
  unfold relabelInside Environment.enter
  cases hp : lastPlace? l xs with
  | none => simp [lastPlace?_eq_none.mpr hl]
  | some i =>
    have hi : i < ys.length := hlen ▸ lastPlace?_lt hp
    simp [hi, lastPlace?_getElem hys hi]

namespace Process

/-- Puts labels for the free labels. -/
@[grind =] def instantiate (σ : String → String) : Process String → Process String
  | .nil => .nil
  | .send chan values => .send (σ chan) (values.map σ)
  | .receive chan vars body =>
    let fresh := freshLabels (body.freeLabels.map σ) vars.length
    .receive (σ chan) fresh (body.instantiate (relabelInside σ vars fresh))
  | .par ps => .par (ps.map (instantiate σ))
  | .replicate body => .replicate (body.instantiate σ)
  | .restrict name body =>
    let fresh := freshLabels (body.freeLabels.map σ) 1
    .restrict (fresh.headD name) (body.instantiate (relabelInside σ [name] fresh))
termination_by p => sizeOf p

/-- A process after a substitution reads like the process itself where each label refers to what
the label put for it refers to. -/
theorem read_instantiate (p : Process String) (σ : String → String) (ρ : Environment)
    (depth : Nat) : (p.instantiate σ).read ρ depth = p.read (ρ ∘ σ) depth := by
  induction p generalizing σ ρ depth with
  | nil => simp [instantiate, read]
  | send chan values => simp [instantiate, read]
  | receive chan vars body ih =>
    simp only [instantiate, read, length_freshLabels, ih, Function.comp_apply, receive.injEq,
      true_and]
    refine read_congr fun l hl => enter_relabelInside (length_freshLabels ..) (freshLabels_nodup ..) ?_
    exact notMem_freshLabels (List.mem_map_of_mem hl)
  | par ps ih =>
    simp only [instantiate, read, List.map_map, par.injEq]
    exact List.map_congr_left fun p hp => ih p hp σ ρ depth
  | replicate body ih => simp [instantiate, read, ih]
  | restrict name body ih =>
    generalize hf : freshLabels (body.freeLabels.map σ) 1 = fresh
    have hlen : fresh.length = 1 := hf ▸ length_freshLabels ..
    obtain ⟨y, rfl⟩ := List.length_eq_one_iff.mp hlen
    simp only [instantiate, read, hf, List.headD_cons, ih, restrict.injEq, true_and]
    refine read_congr fun l hl => enter_relabelInside hlen (List.nodup_singleton y) ?_
    exact hf ▸ notMem_freshLabels (List.mem_map_of_mem hl)

theorem mem_freeLabels_instantiate {p : Process String} {σ : String → String} {l : String} :
    l ∈ (p.instantiate σ).freeLabels ↔ ∃ m ∈ p.freeLabels, σ m = l := by
  have h : .free l ∈ ((p.instantiate σ).read .free 0).occurrences ↔
      .free l ∈ (p.read (Referent.free ∘ σ) 0).occurrences := by
    rw [read_instantiate]
  simpa [free_mem_read] using h

end Process
end PiCalculus
