import Mathlib
import PiCalculus.Proofs.Process.Substitution
import PiCalculus.Reduction.Communication

/-! Places where a process may communicate. The ways to them lead through compositions, replications
and restrictions, never behind the prefix of a receive. -/

namespace PiCalculus.Process

variable {ν μ : Type}

inductive Leads : List Nat → Process ν → Process ν → Prop
  | here (p : Process ν) : Leads [] p p
  | component (as : List (Process ν)) {path : List Nat} {p q : Process ν} (l : Leads path p q)
      (bs : List (Process ν)) : Leads (as.length :: path) (.par (as ++ p :: bs)) q
  | replicate {path : List Nat} {p q : Process ν} (l : Leads path p q) :
      Leads (0 :: path) (.replicate p) q
  | restrict {path : List Nat} {n : ν} {p q : Process ν} (l : Leads path p q) :
      Leads (0 :: path) (.restrict n p) q

theorem of_getElem?_singleton {α : Type} {a b : α} {i : Nat} (h : [a][i]? = some b) :
    i = 0 ∧ a = b := by
  obtain ⟨hi, hb⟩ := List.getElem?_eq_some_iff.mp h
  obtain rfl : i = 0 := by simpa using hi
  exact ⟨rfl, hb⟩

theorem split_of_getElem? {α : Type} {l : List α} {i : Nat} {a : α} (h : l[i]? = some a) :
    ∃ as bs, l = as ++ a :: bs ∧ as.length = i := by
  obtain ⟨hi, rfl⟩ := List.getElem?_eq_some_iff.mp h
  refine ⟨l.take i, l.drop (i + 1), ?_, List.length_take_of_le hi.le⟩
  rw [List.getElem_cons_drop, List.take_append_drop]

theorem Leads.of_getElem? {ps : List (Process ν)} {i : Nat} {path : List Nat} {p q : Process ν}
    (h : ps[i]? = some p) (l : Leads path p q) : Leads (i :: path) (.par ps) q := by
  obtain ⟨as, bs, rfl, rfl⟩ := split_of_getElem? h
  exact .component as l bs

attribute [grind =] replaceAt

theorem replaceAt_component (as : List (Process ν)) (p : Process ν) (bs : List (Process ν))
    (path : List Nat) (new : Process ν) :
    (par (as ++ p :: bs)).replaceAt (as.length :: path) new =
      par (as ++ p.replaceAt path new :: bs) := by
  have h : ∀ l : List (Process ν), (l ++ p :: bs).modify l.length (·.replaceAt path new) =
      l ++ p.replaceAt path new :: bs := by
    intro l
    induction l with
    | nil => simp
    | cons a l ih => simp [ih]
  rw [replaceAt, h as]

theorem leads_of_focus? {p : Process ν} {path : List Nat} (h : p.focus? = some path) :
    ∃ ps, Leads path p (.par ps) := by
  induction p generalizing path with
  | nil => simp [focus?] at h
  | send chan values => simp [focus?] at h
  | receive chan vars body => simp [focus?] at h
  | par ps ih =>
    rw [focus?, Option.some.injEq] at h
    generalize hn : (ps.map fun p => if p.isPar then p.focus? else none) = nested at h
    -- The place is in the first component that is a composition, or here if there is none.
    rcases Option.getD_eq_iff.mp h with hf | ⟨-, rfl⟩
    case inr => exact ⟨ps, .here _⟩
    case inl =>
      obtain ⟨⟨path?, i⟩, hmem, hi⟩ := List.exists_of_findSome?_eq_some hf
      obtain ⟨inner, rfl, rfl⟩ := Option.map_eq_some_iff.mp hi
      obtain ⟨p, hp, hfocus⟩ : ∃ p, ps[i]? = some p ∧ p.focus? = some inner := by
        have hget := List.mk_mem_zipIdx_iff_getElem?.mp hmem
        rw [← hn, List.getElem?_map] at hget
        obtain ⟨p, hp, hpar⟩ := Option.map_eq_some_iff.mp hget
        refine ⟨p, hp, ?_⟩
        split at hpar
        · exact hpar
        · cases hpar
      obtain ⟨qs, hqs⟩ := ih p (List.mem_of_getElem? hp) hfocus
      exact ⟨qs, .of_getElem? hp hqs⟩
  | replicate body ih =>
    rw [focus?] at h
    obtain ⟨inner, hb, rfl⟩ := Option.map_eq_some_iff.mp h
    obtain ⟨ps, hl⟩ := ih hb
    exact ⟨ps, .replicate hl⟩
  | restrict name body ih =>
    rw [focus?] at h
    obtain ⟨inner, hb, rfl⟩ := Option.map_eq_some_iff.mp h
    obtain ⟨ps, hl⟩ := ih hb
    exact ⟨ps, .restrict hl⟩

namespace Leads

variable {path : List Nat} {p q : Process ν}

theorem at?_eq (h : Leads path p q) : p.at? path = some q := by
  induction h with
  | here p => simp [at?]
  | component as l bs ih => simp [at?, children, ih]
  | replicate l ih => simpa [at?, children] using ih
  | restrict l ih => simpa [at?, children] using ih

theorem map (f : ν → μ) (h : Leads path p q) : Leads path (p.map f) (q.map f) := by
  induction h with
  | here p => exact .here _
  | component as l bs ih =>
    rw [Process.map, List.map_append, List.map_cons]
    simpa using component (as.map (Process.map f)) ih (bs.map (Process.map f))
  | replicate l ih =>
    rw [Process.map]
    exact .replicate ih
  | restrict l ih =>
    rw [Process.map]
    exact .restrict ih

theorem binders_subset (h : Leads path p q) : q.binders ⊆ p.binders := by
  induction h with
  | here p => exact fun _ hn => hn
  | component as l bs ih =>
    intro n hn
    simp [binders, ih hn]
  | replicate l ih => simpa [binders] using ih
  | restrict l ih =>
    rw [binders]
    exact fun n hn => List.mem_cons_of_mem _ (ih hn)

theorem inputs_subset (h : Leads path p q) : q.inputs ⊆ p.inputs := by
  induction h with
  | here p => exact fun _ hi => hi
  | component as l bs ih =>
    intro i hi
    simp [inputs, ih hi]
  | replicate l ih => simpa [inputs] using ih
  | restrict l ih => simpa [inputs] using ih

theorem replaceAt_self (h : Leads path p q) : p.replaceAt path q = p := by
  induction h with
  | here p => simp [replaceAt]
  | component as l bs ih => rw [replaceAt_component, ih]
  | replicate l ih => rw [replaceAt, ih]
  | restrict l ih => rw [replaceAt, ih]

/-- The names outside stay in a replacement, and all else in it comes from what is put there. -/
theorem mem_occurrences_replaceAt (h : Leads path p q) {new : Process ν} {n : ν} :
    n ∈ (p.replaceAt path new).occurrences ↔
      n ∈ (p.replaceAt path .nil).occurrences ∨ n ∈ new.occurrences := by
  induction h with
  | here p => simp [replaceAt, occurrences]
  | component as l bs ih =>
    simp only [replaceAt_component, occurrences, List.flatMap_append, List.flatMap_cons,
      List.mem_append, ih]
    tauto
  | replicate l ih => simpa [replaceAt, occurrences] using ih
  | restrict l ih => simp only [replaceAt, occurrences, List.mem_cons, ih, or_assoc]

/-- Two labellings that agree outside a place differ after a replacement there in it only. -/
theorem map_replaceAt (h : Leads path p q) {f g : ν → μ}
    (agree : ∀ n ∈ (p.replaceAt path .nil).occurrences, f n = g n) (new : Process ν) :
    (p.replaceAt path new).map f = (p.map g).replaceAt path (new.map f) := by
  induction h with
  | here p => simp [replaceAt]
  | @component as path p q l bs ih =>
    simp only [replaceAt_component, occurrences, List.flatMap_append, List.flatMap_cons,
      List.mem_append, or_imp, forall_and] at agree
    obtain ⟨hleft, hinner, hright⟩ := agree
    -- Beside the way both labellings agree.
    have side : ∀ rs : List (Process ν), (∀ n ∈ rs.flatMap occurrences, f n = g n) →
        rs.map (Process.map f) = rs.map (Process.map g) := fun rs hrs =>
      List.map_congr_left fun r hr => map_congr fun n hn => hrs n (List.mem_flatMap.mpr ⟨r, hr, hn⟩)
    have hlen : as.length = (as.map (Process.map g)).length := by simp
    rw [replaceAt_component, Process.map, Process.map, List.map_append, List.map_append,
      List.map_cons, List.map_cons, hlen, replaceAt_component, ih hinner, side as hleft,
      side bs hright]
  | replicate l ih =>
    simp only [replaceAt, occurrences] at agree
    simp only [replaceAt, Process.map, ih agree]
  | restrict l ih =>
    simp only [replaceAt, occurrences, List.forall_mem_cons] at agree
    simp only [replaceAt, Process.map, ih agree.2, agree.1]

/-- Two replacements at a place make processes that read alike if they read alike there. -/
theorem read_replaceAt_iff {p q : Process String} (h : Leads path p q) {ρ : Environment}
    {depth : Nat} (below : ρ.Below depth) :
    ∃ (inner : Environment) (innerDepth : Nat), inner.Below innerDepth ∧
      ∀ new new' : Process String,
        (p.replaceAt path new).read ρ depth = (p.replaceAt path new').read ρ depth ↔
          new.read inner innerDepth = new'.read inner innerDepth := by
  induction h generalizing ρ depth with
  | here p => exact ⟨ρ, depth, below, fun new new' => by simp [replaceAt]⟩
  | component as l bs ih =>
    obtain ⟨inner, innerDepth, hinner, hiff⟩ := ih below
    refine ⟨inner, innerDepth, hinner, fun new new' => ?_⟩
    simp only [replaceAt_component, read, List.map_append, List.map_cons, par.injEq]
    rw [← hiff new new']
    simp
  | replicate l ih =>
    obtain ⟨inner, innerDepth, hinner, hiff⟩ := ih below
    refine ⟨inner, innerDepth, hinner, fun new new' => ?_⟩
    simpa only [replaceAt, read, replicate.injEq] using hiff new new'
  | @restrict path n p q l ih =>
    obtain ⟨inner, innerDepth, hinner, hiff⟩ := ih (below.enter [n])
    refine ⟨inner, innerDepth, hinner, fun new new' => ?_⟩
    rw [List.length_singleton] at hiff
    simpa only [replaceAt, read, restrict.injEq, true_and] using hiff new new'

/-- What is free after a replacement was free before, if that holds at its place. -/
theorem freeLabels_replaceAt_subset {p q new : Process String} (h : Leads path p q)
    (hnew : new.freeLabels ⊆ q.freeLabels) :
    (p.replaceAt path new).freeLabels ⊆ p.freeLabels := by
  unfold freeLabels at hnew ⊢
  induction h with
  | here p => rwa [replaceAt]
  | component as l bs ih =>
    rw [replaceAt_component, free, free, List.flatMap_append, List.flatMap_append,
      List.flatMap_cons, List.flatMap_cons]
    intro l hl
    simp only [List.mem_append] at hl ⊢
    exact hl.imp_right fun hl => hl.imp_left fun hl => ih hnew hl
  | replicate l ih =>
    rw [replaceAt, free, free]
    exact ih hnew
  | restrict l ih =>
    rw [replaceAt, free, free]
    exact List.filter_subset _ (ih hnew)

end Leads

/-- The send and the receive at two places of a composition have communicated: nothing is left of
the send, and of the receive its continuation with the values put for the variables. -/
inductive Communicates (path : List Nat) (sender receiver : Nat) (p : Process String) :
    Process String → Prop
  | intro {ps : List (Process String)} {chan : String} {values vars : List String}
      {body : Process String} (leads : Leads path p (.par ps))
      (send : ps[sender]? = some (.send chan values))
      (receive : ps[receiver]? = some (.receive chan vars body))
      (even : values.length = vars.length) :
      Communicates path sender receiver p
        (p.replaceAt path (.par ((ps.set sender .nil).set receiver
          (body.instantiate (substitution vars values)))))

theorem substitution_of_notMem {vars values : List String} {l : String} (h : l ∉ vars) :
    substitution vars values l = l := by
  have hnone : (vars.zip values).lookup l = none := by
    rw [List.lookup_eq_none_iff]
    rintro ⟨x, v⟩ hm
    have hx : x ≠ l := fun he => h (he ▸ (List.of_mem_zip hm).1)
    simpa using hx.symm
  rw [substitution, hnone, Option.getD_none]

theorem substitution_mem {vars values : List String} {l : String}
    (even : values.length = vars.length) (h : l ∈ vars) : substitution vars values l ∈ values := by
  unfold substitution
  induction vars generalizing values with
  | nil => cases h
  | cons x vars ih =>
    obtain ⟨v, values, rfl⟩ := List.exists_cons_of_length_eq_add_one even
    rw [List.zip_cons_cons, List.lookup_cons]
    by_cases hx : l = x
    · simp [hx]
    · have hl := ih (by simpa using even) ((List.mem_cons.mp h).resolve_left hx)
      have hb : (l == x) = false := by simpa using hx
      rw [hb]
      exact List.mem_cons_of_mem v hl

theorem Communicates.freeLabels_subset {path : List Nat} {sender receiver : Nat}
    {p q : Process String} (h : Communicates path sender receiver p q) :
    q.freeLabels ⊆ p.freeLabels := by
  obtain @⟨ps, chan, values, vars, body, hleads, hsend, hreceive, even⟩ := h
  refine hleads.freeLabels_replaceAt_subset fun l hl => ?_
  rw [freeLabels, free, List.mem_flatMap] at hl ⊢
  obtain ⟨q, hq, hlq⟩ := hl
  rcases List.mem_or_eq_of_mem_set hq with hq | rfl
  · rcases List.mem_or_eq_of_mem_set hq with hq | rfl
    · exact ⟨q, hq, hlq⟩
    · simp [free] at hlq
  · obtain ⟨m, hm, rfl⟩ := mem_freeLabels_instantiate.mp hlq
    by_cases hv : m ∈ vars
    · refine ⟨_, List.mem_of_getElem? hsend, ?_⟩
      rw [free]
      exact List.mem_cons_of_mem _ (substitution_mem even hv)
    · refine ⟨_, List.mem_of_getElem? hreceive, ?_⟩
      rw [substitution_of_notMem hv, free, List.map_id]
      exact List.mem_cons_of_mem _ (List.mem_filter.mpr ⟨hm, by simpa using hv⟩)

end PiCalculus.Process
