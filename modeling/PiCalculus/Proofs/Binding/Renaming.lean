import Mathlib
import PiCalculus.Process.Load
import PiCalculus.Proofs.Binding.Resolution

/-! Resolving does not depend on which identities the names have. It does the same to a process whose
names are renamed, and nothing to one that is resolved already. Processes of one shape whose
occurrences are numbered alike are such renamings of each other. -/

namespace PiCalculus

variable {ν μ : Type} {label : ν → String} {label' : μ → String} {f : ν → μ} {scope : Scope ν}
  {n : ν}

namespace Scope

variable (hn : label' (f n) = label n) (hs : ∀ m ∈ scope, label' (f m) = label m)

include hn hs

theorem lookup_map :
    Scope.lookup label' (scope.map f) (f n) = (scope.lookup label n).map f := by
  rw [lookup, lookup, List.find?_map]
  congr 1
  induction scope with
  | nil => rfl
  | cons m scope ih =>
    obtain ⟨hm, hs⟩ := List.forall_mem_cons.mp hs
    rw [List.find?_cons, List.find?_cons, ih hs]
    simp only [Function.comp_apply, hm, hn]

theorem resolve_map : Scope.resolve label' (scope.map f) (f n) = f (scope.resolve label n) := by
  rw [resolve, resolve, lookup_map hn hs]
  cases scope.lookup label n <;> rfl

theorem restrict_map :
    Scope.restrict label' (scope.map f) (f n) = (scope.restrict label n).map f := by
  rw [restrict, restrict, List.map_cons, List.filter_map]
  congr 2
  refine List.filter_congr fun m hm => ?_
  simp only [Function.comp_apply, hs m hm, hn]

theorem withChannel_map :
    Scope.withChannel label' (scope.map f) (f n) = (scope.withChannel label n).map f := by
  rw [withChannel, withChannel, lookup_map hn hs]
  cases scope.lookup label n <;> rfl

omit hn in
theorem receive_map {vars : List ν} (hv : ∀ v ∈ vars, label' (f v) = label v) :
    Scope.receive label' (scope.map f) (vars.map f) = (scope.receive label vars).map f := by
  rw [receive, receive, List.map_append, List.map_reverse, List.filter_map]
  congr 2
  refine List.filter_congr fun m hm => ?_
  simp only [Function.comp_apply, List.forall_mem_map, hs m hm]
  refine decide_eq_decide.mpr (forall₂_congr fun v hv' => ?_)
  rw [hv v hv']

end Scope

namespace Process

theorem bindIn_map {p : Process ν} (hp : ∀ n ∈ p.occurrences, label' (f n) = label n)
    (hs : ∀ n ∈ scope, label' (f n) = label n) :
    (p.map f).bindIn label' (scope.map f) = (p.bindIn label scope).map f := by
  induction p generalizing scope with
  | nil => rw [map, bindIn, bindIn, map]
  | send chan values =>
    rw [occurrences] at hp
    obtain ⟨hchan, hvalues⟩ := List.forall_mem_cons.mp hp
    rw [map, bindIn, bindIn, map, Scope.resolve_map hchan hs, List.map_map, List.map_map]
    congr 1
    exact List.map_congr_left fun v hv => Scope.resolve_map (hvalues v hv) hs
  | receive chan vars body ih =>
    rw [occurrences] at hp
    obtain ⟨hchan, hrest⟩ := List.forall_mem_cons.mp hp
    obtain ⟨hvars, hbody⟩ := List.forall_mem_append.mp hrest
    have hinner : ∀ n ∈ scope.receive label vars, label' (f n) = label n := by
      intro n hn
      rcases List.mem_append.mp hn with hn | hn
      · exact hvars n (List.mem_reverse.mp hn)
      · exact hs n (List.mem_filter.mp hn).1
    have hbelow : ∀ n ∈ (scope.receive label vars).withChannel label chan, label' (f n) = label n := by
      unfold Scope.withChannel
      split
      · exact hinner
      · exact List.forall_mem_cons.mpr ⟨hchan, hinner⟩
    rw [map, bindIn, bindIn, map, Scope.receive_map hs hvars, Scope.resolve_map hchan hinner,
      Scope.withChannel_map hchan hinner, ih hbody hbelow]
  | par ps ih =>
    rw [map, bindIn, bindIn, map, List.map_map, List.map_map]
    congr 1
    refine List.map_congr_left fun p hp' => ih p hp' (fun n hn => hp n ?_) hs
    rw [occurrences]
    exact List.mem_flatMap.mpr ⟨p, hp', hn⟩
  | replicate body ih =>
    rw [occurrences] at hp
    rw [map, bindIn, bindIn, map, ih hp hs]
  | restrict name body ih =>
    rw [occurrences] at hp
    obtain ⟨hname, hbody⟩ := List.forall_mem_cons.mp hp
    have hbelow : ∀ n ∈ scope.restrict label name, label' (f n) = label n :=
      List.forall_mem_cons.mpr ⟨hname, fun n hn => hs n (List.mem_filter.mp hn).1⟩
    rw [map, bindIn, bindIn, map, Scope.restrict_map hname hs, ih hbody hbelow]

theorem bind_map {p : Process ν} (hp : ∀ n ∈ p.occurrences, label' (f n) = label n) :
    (p.map f).bind label' = (p.bind label).map f := by
  have hnil : ∀ n ∈ ([] : Scope ν), label' (f n) = label n := by simp
  exact bindIn_map hp hnil

theorem resolve_resolve (scope : Scope ν) (n : ν) :
    scope.resolve label (scope.resolve label n) = scope.resolve label n := by
  unfold Scope.resolve
  cases hl : scope.lookup label n with
  | none => rw [Option.getD_none, hl, Option.getD_none]
  | some b =>
    rw [Option.getD_some, Scope.lookup_congr scope (Scope.label_of_lookup hl), hl,
      Option.getD_some]

theorem withChannel_resolve (scope : Scope ν) (n : ν) :
    scope.withChannel label (scope.resolve label n) = scope.withChannel label n := by
  unfold Scope.resolve
  cases hl : scope.lookup label n with
  | none => rw [Option.getD_none]
  | some b =>
    rw [Option.getD_some, Scope.withChannel, Scope.withChannel,
      Scope.lookup_congr scope (Scope.label_of_lookup hl)]
    cases hl' : scope.lookup label n with
    | none =>
      rw [hl] at hl'
      cases hl'
    | some b' => rfl

theorem bindIn_bindIn (scope : Scope ν) (p : Process ν) :
    (p.bindIn label scope).bindIn label scope = p.bindIn label scope := by
  induction p generalizing scope with
  | nil => rw [bindIn, bindIn]
  | send chan values =>
    rw [bindIn, bindIn, resolve_resolve, List.map_map]
    congr 1
    exact List.map_congr_left fun v _ => resolve_resolve scope v
  | receive chan vars body ih =>
    rw [bindIn, bindIn, resolve_resolve, withChannel_resolve, ih]
  | par ps ih =>
    rw [bindIn, bindIn, List.map_map]
    congr 1
    exact List.map_congr_left fun p hp => ih p hp scope
  | replicate body ih => rw [bindIn, bindIn, ih]
  | restrict name body ih => rw [bindIn, bindIn, ih]

theorem bind_bind (p : Process ν) : (p.bind label).bind label = p.bind label := bindIn_bindIn [] p

section shape

variable {κ : Type} {g : ν → κ} {h : μ → κ}

theorem length_occurrences_eq {p : Process ν} {q : Process μ} (hshape : q.map h = p.map g) :
    q.occurrences.length = p.occurrences.length := by
  have hlength := congrArg (fun r => r.occurrences.length) hshape
  simpa only [occurrences_map, List.length_map] using hlength

/-- Renamed occurrences make a renamed process, if the shape is the same. -/
theorem map_eq_of_occurrences {p : Process ν} {q : Process μ} (hshape : q.map h = p.map g)
    (hocc : q.occurrences = p.occurrences.map f) : p.map f = q := by
  induction p generalizing q with
  | nil => cases q <;> simp_all [map]
  | send chan values =>
    cases q with
    | send chan' values' =>
      rw [occurrences, occurrences, List.map_cons, List.cons.injEq] at hocc
      rw [map, hocc.1, hocc.2]
    | _ => simp [map] at hshape
  | receive chan vars body ih =>
    cases q with
    | receive chan' vars' body' =>
      simp only [map, receive.injEq] at hshape
      simp only [occurrences, List.map_cons, List.map_append, List.cons.injEq] at hocc
      have hlength : vars'.length = (vars.map f).length := by
        simpa using congrArg List.length hshape.2.1
      obtain ⟨hvars, hbody⟩ := List.append_inj hocc.2 hlength
      rw [map, hocc.1, hvars, ih hshape.2.2 hbody]
    | _ => simp [map] at hshape
  | par ps ih =>
    cases q with
    | par qs =>
      simp only [map, par.injEq] at hshape
      rw [occurrences, occurrences, List.map_flatMap] at hocc
      rw [map, par.injEq]
      -- Components of the same shape have as many occurrences, so these can be told apart one
      -- component after the other.
      induction ps generalizing qs with
      | nil =>
        rw [List.map_nil, List.map_eq_nil_iff] at hshape
        rw [hshape, List.map_nil]
      | cons p ps more =>
        cases qs with
        | nil => simp at hshape
        | cons q qs =>
          obtain ⟨hp, hps⟩ := List.forall_mem_cons.mp ih
          rw [List.map_cons, List.map_cons, List.cons.injEq] at hshape
          rw [List.flatMap_cons, List.flatMap_cons] at hocc
          have hlength : q.occurrences.length = (p.occurrences.map f).length := by
            rw [List.length_map, length_occurrences_eq hshape.1]
          obtain ⟨hfirst, hrest⟩ := List.append_inj hocc hlength
          rw [List.map_cons, hp hshape.1 hfirst, more hps qs hrest hshape.2]
    | _ => simp [map] at hshape
  | replicate body ih =>
    cases q with
    | replicate body' =>
      simp only [map, replicate.injEq] at hshape
      rw [occurrences, occurrences] at hocc
      rw [map, ih hshape hocc]
    | _ => simp [map] at hshape
  | restrict name body ih =>
    cases q with
    | restrict name' body' =>
      simp only [map, restrict.injEq] at hshape
      simp only [occurrences, List.map_cons, List.cons.injEq] at hocc
      rw [map, hocc.1, ih hshape.2 hocc.2]
    | _ => simp [map] at hshape

end shape

section ids

variable {p q : Process Name}

theorem mem_names {n : Name} : n ∈ p.names ↔ n ∈ p.occurrences := List.mem_eraseDups

theorem getElem?_ids {i : Nat} {n : Name} (h : p.occurrences[i]? = some n) :
    p.ids[i]? = some (p.names.idxOf n) := by
  rw [ids, List.getElem?_map, h, Option.map_some]

/-- Occurrences that are numbered alike are renamed ones. -/
theorem exists_renaming (hids : p.ids = q.ids) :
    ∃ f, Set.InjOn f {n | n ∈ p.occurrences} ∧ q.occurrences = p.occurrences.map f := by
  have hlength : p.occurrences.length = q.occurrences.length := by
    simpa [ids] using congrArg List.length hids
  -- A name goes to the name that has its number.
  let f : Name → Name := fun n => (q.names[p.names.idxOf n]?).getD n
  have hsame : ∀ {i : Nat} {n m : Name}, p.occurrences[i]? = some n → q.occurrences[i]? = some m →
      p.names.idxOf n = q.names.idxOf m := by
    intro i n m hn hm
    have hpn := getElem?_ids hn
    rw [hids, getElem?_ids hm, Option.some.injEq] at hpn
    exact hpn.symm
  have hocc : q.occurrences = p.occurrences.map f := by
    refine List.ext_getElem? fun i => ?_
    rw [List.getElem?_map]
    cases hn : p.occurrences[i]? with
    | none =>
      rw [List.getElem?_eq_none_iff] at hn
      rw [List.getElem?_eq_none_iff.mpr (hlength ▸ hn), Option.map_none]
    | some n =>
      obtain ⟨hi, -⟩ := List.getElem?_eq_some_iff.mp hn
      have hm := List.getElem?_eq_getElem (hlength ▸ hi)
      have hmem := mem_names.mpr (List.mem_of_getElem? hm)
      rw [hm, Option.map_some]
      simp only [f, hsame hn hm, List.getElem?_idxOf hmem, Option.getD_some]
  refine ⟨f, fun n hn m hm heq => ?_, hocc⟩
  obtain ⟨i, hi⟩ := List.mem_iff_getElem?.mp hn
  obtain ⟨j, hj⟩ := List.mem_iff_getElem?.mp hm
  have hi' : q.occurrences[i]? = some (f n) := by rw [hocc, List.getElem?_map, hi, Option.map_some]
  have hj' : q.occurrences[j]? = some (f m) := by rw [hocc, List.getElem?_map, hj, Option.map_some]
  have hidx : p.names.idxOf n = p.names.idxOf m := by rw [hsame hi hi', hsame hj hj', heq]
  exact (List.idxOf_inj (mem_names.mpr hn)).mp hidx

theorem names_of_nodup (h : p.occurrences.Nodup) : p.names = p.occurrences := by
  rw [names]
  generalize p.occurrences = ns at h
  induction ns with
  | nil => rfl
  | cons n ns ih =>
    obtain ⟨hn, hns⟩ := List.nodup_cons.mp h
    have hfilter : ns.filter (fun m => !m == n) = ns := by
      refine List.filter_eq_self.mpr fun m hm => ?_
      have hne : m ≠ n := fun heq => hn (heq ▸ hm)
      simp [hne]
    rw [List.eraseDups_cons, hfilter, ih hns]

/-- Occurrences of different names are counted through. -/
theorem ids_of_nodup (h : p.occurrences.Nodup) : p.ids = List.range p.occurrences.length := by
  rw [ids, names_of_nodup h]
  refine List.ext_getElem (by simp) fun i hi hi' => ?_
  rw [List.getElem_map, List.getElem_range, h.idxOf_getElem]

end ids

end Process
end PiCalculus
