import Mathlib
import PiCalculus.Proofs.Binding.Confined
import PiCalculus.Proofs.Process.Congruence
import PiCalculus.Proofs.Process.Context
import PiCalculus.Typing

/-! Processes in which all uses of a channel fit its type. That a process is well-typed depends on
what its names refer to only, so it is kept by renaming of bound names, by substitution and by
structural congruence; and it is kept by communication, since a type determines what is carried. -/

namespace PiCalculus

variable {ν μ : Type} [DecidableEq ν]

/-- Names with their types, where those of a node have been given some; the last of equal names
counts. -/
def assign (Γ : ν → μ) : List ν → List μ → ν → μ
  | x :: xs, m :: ms => assign (Function.update Γ x m) xs ms
  | _, _ => Γ

theorem assign_congr {Γ Δ : ν → μ} {xs : List ν} {ms : List μ} (hlen : ms.length = xs.length)
    {n : ν} (h : n ∉ xs → Γ n = Δ n) : assign Γ xs ms n = assign Δ xs ms n := by
  induction xs generalizing Γ Δ ms with
  | nil => exact h List.not_mem_nil
  | cons x xs ih =>
    obtain ⟨m, ms, rfl⟩ := List.exists_cons_of_length_eq_add_one hlen
    refine ih (by simpa using hlen) fun hn => ?_
    by_cases hx : n = x
    · rw [hx, Function.update_self, Function.update_self]
    · rw [Function.update_of_ne hx, Function.update_of_ne hx]
      exact h (by simp [hx, hn])

theorem assign_eq_lookup {Γ : ν → μ} {xs : List ν} {ms : List μ} (hlen : ms.length = xs.length)
    (hxs : xs.Nodup) (n : ν) : assign Γ xs ms n = ((xs.zip ms).lookup n).getD (Γ n) := by
  induction xs generalizing Γ ms with
  | nil => simp [assign]
  | cons x xs ih =>
    obtain ⟨m, ms, rfl⟩ := List.exists_cons_of_length_eq_add_one hlen
    obtain ⟨hx, hxs⟩ := List.nodup_cons.mp hxs
    rw [assign, ih (by simpa using hlen) hxs, List.zip_cons_cons, List.lookup_cons]
    by_cases hn : n = x
    · subst hn
      have hnone : (xs.zip ms).lookup n = none := by
        rw [List.lookup_eq_none_iff]
        rintro ⟨y, m'⟩ hy
        have hne : n ≠ y := fun heq => hx (heq ▸ (List.of_mem_zip hy).1)
        simpa using hne
      simp [hnone]
    · have hb : (n == x) = false := by simpa using hn
      rw [hb, Function.update_of_ne hn]

namespace Process

/-- Whether every use of a channel fits its type, where some types carry others one by one. -/
@[grind =] def WellTyped (carries : μ → List μ → Prop) (Γ : ν → μ) : Process ν → Prop
  | .nil => True
  | .send chan values => carries (Γ chan) (values.map Γ)
  | .receive chan vars body =>
    ∃ ms, ms.length = vars.length ∧ carries (Γ chan) ms ∧ body.WellTyped carries (assign Γ vars ms)
  | .par ps => ∀ p ∈ ps, p.WellTyped carries Γ
  | .replicate body => body.WellTyped carries Γ
  | .restrict name body => ∃ m, body.WellTyped carries (assign Γ [name] [m])
termination_by p => sizeOf p

variable {carries : μ → List μ → Prop}

theorem wellTyped_congr {p : Process String} {Γ Δ : String → μ}
    (h : ∀ l ∈ p.freeLabels, Γ l = Δ l) : p.WellTyped carries Γ ↔ p.WellTyped carries Δ := by
  unfold freeLabels at h
  induction p generalizing Γ Δ with
  | nil => simp [WellTyped]
  | send chan values =>
    simp only [free, List.forall_mem_cons] at h
    rw [WellTyped, WellTyped, h.1, List.map_congr_left h.2]
  | receive chan vars body ih =>
    simp only [free, List.forall_mem_cons, List.mem_filter, List.map_id, id_eq] at h
    rw [WellTyped, WellTyped, h.1]
    refine exists_congr fun ms => and_congr_right fun hlen => and_congr_right fun _ => ?_
    exact ih fun l hl => assign_congr hlen fun hv => h.2 l ⟨hl, by simpa using hv⟩
  | par ps ih =>
    rw [free] at h
    rw [WellTyped, WellTyped]
    exact forall₂_congr fun p hp => ih p hp fun l hl => h l (List.mem_flatMap.mpr ⟨p, hp, hl⟩)
  | replicate body ih =>
    rw [free] at h
    rw [WellTyped, WellTyped]
    exact ih h
  | restrict name body ih =>
    simp only [free, List.mem_filter, id_eq] at h
    rw [WellTyped, WellTyped]
    refine exists_congr fun m => ih fun l hl => ?_
    have hlen : [m].length = [name].length := rfl
    exact assign_congr hlen fun hn => h l ⟨hl, by simpa using hn⟩

theorem enter_cons {ρ : Environment} {depth : Nat} {x : String} {xs : List String} :
    (ρ.enter depth [x]).enter (depth + 1) xs = ρ.enter depth (x :: xs) := by
  funext l
  simp only [Environment.enter, lastPlace?]
  cases lastPlace? l xs with
  | some i => simp [Nat.add_assoc, Nat.add_comm 1 i]
  | none => by_cases hx : x = l <;> simp [hx]

/-- The types of what the binders of a node refer to are those of its labels. -/
theorem assign_places {Δ : Referent → μ} {ρ : Environment} {depth : Nat} (below : ρ.Below depth)
    {xs : List String} {ms : List μ} (hlen : ms.length = xs.length) :
    assign Δ (places depth xs.length) ms ∘ ρ.enter depth xs = assign (Δ ∘ ρ) xs ms := by
  induction xs generalizing Δ ρ depth ms with
  | nil =>
    funext l
    simp [assign, places, Environment.enter, lastPlace?]
  | cons x xs ih =>
    obtain ⟨m, ms, rfl⟩ := List.exists_cons_of_length_eq_add_one hlen
    -- Inside the first binder of the node its place has the type of its label, and no label that
    -- has come from outside refers to that place.
    have hinside : Function.update Δ (.bound depth) m ∘ ρ.enter depth [x] =
        Function.update (Δ ∘ ρ) x m := by
      funext l
      by_cases hl : l = x
      · subst hl
        simp [Environment.enter, lastPlace?]
      · have hout : ρ l ≠ .bound depth := fun hb => Nat.lt_irrefl _ (below l depth hb)
        have henter : ρ.enter depth [x] l = ρ l := by
          simp [Environment.enter, lastPlace?, Ne.symm hl]
        rw [Function.comp_apply, henter, Function.update_of_ne hout, Function.update_of_ne hl,
          Function.comp_apply]
    have hplaces : places depth (x :: xs).length =
        .bound depth :: places (depth + 1) xs.length := by
      simp [places, List.range'_succ]
    rw [hplaces, ← enter_cons, assign, assign, ← hinside]
    exact ih (below.enter [x]) (by simpa using hlen)

/-- A process is well-typed as what it is read as is. -/
theorem wellTyped_read {p : Process String} {Δ : Referent → μ} {ρ : Environment} {depth : Nat}
    (below : ρ.Below depth) :
    (p.read ρ depth).WellTyped carries Δ ↔ p.WellTyped carries (Δ ∘ ρ) := by
  induction p generalizing Δ ρ depth with
  | nil => simp [read, WellTyped]
  | send chan values => simp [read, WellTyped]
  | receive chan vars body ih =>
    have hplaces : (places depth vars.length).length = vars.length := by simp [places]
    rw [read, WellTyped, WellTyped, hplaces]
    refine exists_congr fun ms => and_congr_right fun hlen => and_congr_right fun _ => ?_
    rw [ih (below.enter vars), assign_places below hlen]
  | par ps ih =>
    rw [read, WellTyped, WellTyped, List.forall_mem_map]
    exact forall₂_congr fun p hp => ih p hp below
  | replicate body ih =>
    rw [read, WellTyped, WellTyped]
    exact ih below
  | restrict name body ih =>
    rw [read, WellTyped, WellTyped]
    refine exists_congr fun m => ?_
    have hbelow : (ρ.enter depth [name]).Below (depth + 1) := below.enter [name]
    have hlen : [m].length = [name].length := rfl
    rw [ih hbelow, ← assign_places below hlen]
    rfl

theorem AlphaEquivalent.wellTyped_iff {p q : Process String} (h : AlphaEquivalent p q)
    (Γ : String → μ) : p.WellTyped carries Γ ↔ q.WellTyped carries Γ := by
  -- Both are read as one process, in which only free labels need a type.
  let Δ : Referent → μ
    | .free l => Γ l
    | .bound _ => Γ ""
  have hread : ∀ r : Process String, r.nameless.WellTyped carries Δ ↔ r.WellTyped carries Γ :=
    fun r => wellTyped_read Environment.below_free
  rw [← hread p, ← hread q, h]

/-- What is put for a label has the type that the label is taken to have. -/
theorem wellTyped_instantiate {p : Process String} {σ : String → String} {Γ : String → μ} :
    (p.instantiate σ).WellTyped carries Γ ↔ p.WellTyped carries (Γ ∘ σ) := by
  let Δ : Referent → μ
    | .free l => Γ l
    | .bound _ => Γ ""
  have hfree : Environment.Below (Referent.free ∘ σ) 0 := fun l i h => by cases h
  have hleft : ((p.instantiate σ).read .free 0).WellTyped carries Δ ↔
      (p.instantiate σ).WellTyped carries Γ := wellTyped_read Environment.below_free
  have hright : (p.read (Referent.free ∘ σ) 0).WellTyped carries Δ ↔
      p.WellTyped carries (Γ ∘ σ) := wellTyped_read hfree
  rw [← hleft, ← hright, read_instantiate]

theorem Congruent.wellTyped_iff [Nonempty μ] {p q : Process String} (h : Congruent p q)
    (Γ : String → μ) : p.WellTyped carries Γ ↔ q.WellTyped carries Γ := by
  induction h generalizing Γ with
  | alpha h => exact h.wellTyped_iff Γ
  | symm h ih => exact (ih Γ).symm
  | trans h h' ih ih' => exact (ih Γ).trans (ih' Γ)
  | parNil as bs => simp [WellTyped, or_imp, forall_and]
  | parOne p => simp [WellTyped]
  | parNone => simp [WellTyped]
  | replicateNil => simp [WellTyped]
  | @unused name p h =>
    rw [WellTyped]
    have hassign : ∀ m, p.WellTyped carries (assign Γ [name] [m]) ↔ p.WellTyped carries Γ := by
      intro m
      refine wellTyped_congr fun l hl => ?_
      have hne : l ≠ name := fun heq => h (heq ▸ hl)
      simp [assign, Function.update_of_ne hne]
    simp only [hassign, exists_const]
  | receive h ih =>
    rw [WellTyped, WellTyped]
    exact exists_congr fun ms => and_congr_right fun _ => and_congr_right fun _ => ih _
  | component as bs h ih => simp [WellTyped, or_imp, forall_and, ih Γ]
  | replicate h ih =>
    rw [WellTyped, WellTyped]
    exact ih Γ
  | restrict h ih =>
    rw [WellTyped, WellTyped]
    exact exists_congr fun m => ih _

/-- What stands at a place is well-typed for some types of its free names, and anything else that is
so for these may be put there. -/
theorem WellTyped.leads {path : List Nat} {p q : Process ν} {Γ : ν → μ} (h : p.WellTyped carries Γ)
    (l : Leads path p q) :
    ∃ Δ, q.WellTyped carries Δ ∧
      ∀ new, new.WellTyped carries Δ → (p.replaceAt path new).WellTyped carries Γ := by
  induction l generalizing Γ with
  | here p => exact ⟨Γ, h, fun new hnew => by rwa [replaceAt]⟩
  | component as l bs ih =>
    rw [WellTyped] at h
    obtain ⟨Δ, hq, hput⟩ := ih (h _ (by simp))
    refine ⟨Δ, hq, fun new hnew => ?_⟩
    rw [replaceAt_component, WellTyped]
    intro r hr
    rcases List.mem_append.mp hr with hr | hr
    · exact h r (by simp [hr])
    · rcases List.mem_cons.mp hr with rfl | hr
      · exact hput new hnew
      · exact h r (by simp [hr])
  | replicate l ih =>
    rw [WellTyped] at h
    obtain ⟨Δ, hq, hput⟩ := ih h
    refine ⟨Δ, hq, fun new hnew => ?_⟩
    rw [replaceAt, WellTyped]
    exact hput new hnew
  | restrict l ih =>
    rw [WellTyped] at h
    obtain ⟨m, h⟩ := h
    obtain ⟨Δ, hq, hput⟩ := ih h
    refine ⟨Δ, hq, fun new hnew => ?_⟩
    rw [replaceAt, WellTyped]
    exact ⟨m, hput new hnew⟩

/-- Whether a type carries nothing but what it carries. -/
def Determines (carries : μ → List μ → Prop) : Prop :=
  ∀ m ms ns, carries m ms → carries m ns → ms = ns

theorem WellTyped.communication (determines : Determines carries) {ps : List (Process ν)}
    {Γ : ν → μ} (h : (Process.par ps).WellTyped carries Γ) {i j : Nat} {chan other : ν}
    {values vars : List ν} {body : Process ν} (send : ps[i]? = some (.send chan values))
    (receive : ps[j]? = some (.receive other vars body)) (same : Γ other = Γ chan) :
    values.length = vars.length ∧ body.WellTyped carries (assign Γ vars (values.map Γ)) := by
  rw [WellTyped] at h
  have hsend := h _ (List.mem_of_getElem? send)
  have hreceive := h _ (List.mem_of_getElem? receive)
  rw [WellTyped] at hsend
  rw [WellTyped] at hreceive
  obtain ⟨ms, hlen, hcarries, hbody⟩ := hreceive
  rw [same] at hcarries
  have heq := determines _ _ _ hsend hcarries
  rw [heq]
  refine ⟨?_, hbody⟩
  rw [← hlen, ← heq, List.length_map]

theorem assign_eq_comp_substitution {Γ : String → μ} {vars values : List String}
    (even : values.length = vars.length) (distinct : vars.Nodup) :
    assign Γ vars (values.map Γ) = Γ ∘ substitution vars values := by
  funext l
  have hlookup : (vars.zip (values.map Γ)).lookup l = ((vars.zip values).lookup l).map Γ := by
    clear distinct
    induction vars generalizing values with
    | nil => simp
    | cons x vars ih =>
      obtain ⟨v, values, rfl⟩ := List.exists_cons_of_length_eq_add_one even
      rw [List.map_cons, List.zip_cons_cons, List.zip_cons_cons, List.lookup_cons,
        List.lookup_cons, ih (by simpa using even)]
      cases l == x <;> rfl
  rw [assign_eq_lookup (by simpa using even) distinct, hlookup, Function.comp_apply, substitution]
  cases (vars.zip values).lookup l <;> rfl

/-- A communication keeps a process well-typed if the variables that take part are different. -/
theorem Communicates.wellTyped (determines : Determines carries) {path : List Nat} {i j : Nat}
    {p q : Process String} (h : Communicates path i j p q) {Γ : String → μ}
    (hp : p.WellTyped carries Γ) (distinct : ∀ k ∈ p.inputs, k.2.Nodup) :
    q.WellTyped carries Γ := by
  obtain @⟨ps, chan, values, vars, body, hleads, hsend, hreceive, even⟩ := h
  obtain ⟨Δ, hpar, hput⟩ := hp.leads hleads
  obtain ⟨-, hbody⟩ := hpar.communication determines hsend hreceive rfl
  have hvars : vars.Nodup := distinct (chan, vars) (hleads.inputs_subset (by
    rw [inputs]
    refine List.mem_flatMap.mpr ⟨_, List.mem_of_getElem? hreceive, ?_⟩
    rw [inputs]
    exact List.mem_cons_self))
  -- Giving the variables the types of the values is reading the values in their place.
  rw [assign_eq_comp_substitution even hvars] at hbody
  refine hput _ ?_
  rw [WellTyped] at hpar ⊢
  intro r hr
  rcases List.mem_or_eq_of_mem_set hr with hr | rfl
  · rcases List.mem_or_eq_of_mem_set hr with hr | rfl
    · exact hpar r hr
    · rw [WellTyped]
      trivial
  · exact wellTyped_instantiate.mpr hbody

end Process
end PiCalculus
