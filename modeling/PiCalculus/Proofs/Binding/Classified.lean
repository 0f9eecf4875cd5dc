import Mathlib
import PiCalculus.Proofs.Binding.Restricted
import PiCalculus.Proofs.Process.Listing
import PiCalculus.Proofs.Reduction.Simplification
import PiCalculus.Proofs.Store.Sorting

/-! The sorts that a bound process shows its names to have. What is received is a variable. What is
restricted is none, since its restriction is met before anything that sends it. So the sort of a name
tells what holds it, and the lists of free names and variables are right everywhere. -/

namespace PiCalculus

namespace Process

section Variables

variable {known : List Name} {ps rest : List (Process Name)} {p : Process Name} {n : Name}

theorem mem_variablesAmong_of_receive {chan : Name} {vars : List Name} {body : Process Name}
    (hmet : receive chan vars body ∈ ps) (hn : n ∈ vars) : n ∈ variablesAmong known ps := by
  induction ps generalizing known with
  | nil => cases hmet
  | cons q ps ih =>
    rcases List.mem_cons.mp hmet with rfl | hps
    · rw [variablesAmong]
      exact List.mem_append_left _ hn
    · cases q with
      | nil => exact ih hps
      | send c values =>
        rw [variablesAmong]
        exact List.mem_append_right _ (ih hps)
      | receive c vs b =>
        rw [variablesAmong]
        exact List.mem_append_right _ (ih hps)
      | par qs => exact ih hps
      | replicate b => exact ih hps
      | restrict name b => exact ih hps

/-- What is classified already becomes a variable only by being received. -/
theorem notMem_variablesAmong_of_known (hn : n ∈ known)
    (hr : ∀ chan vars body, receive chan vars body ∈ ps → n ∉ vars) :
    n ∉ variablesAmong known ps := by
  induction ps generalizing known with
  | nil => exact List.not_mem_nil
  | cons q ps ih =>
    have hps : ∀ chan vars body, receive chan vars body ∈ ps → n ∉ vars :=
      fun chan vars body hm => hr chan vars body (List.mem_cons_of_mem q hm)
    cases q with
    | nil => exact ih hn hps
    | send chan values =>
      rw [variablesAmong, List.mem_append, not_or]
      exact ⟨fun hv => by simp [hn] at hv, ih (List.mem_append_right values hn) hps⟩
    | receive chan vars body =>
      rw [variablesAmong, List.mem_append, not_or]
      exact ⟨hr chan vars body List.mem_cons_self, ih (List.mem_append_right vars hn) hps⟩
    | par qs => exact ih hn hps
    | replicate body => exact ih hn hps
    | restrict name body => exact ih (List.mem_cons_of_mem name hn) hps

/-- A name that occurs only where it is restricted is not sent by these nodes, and if they do not
restrict it the nodes below are of the same kind. -/
theorem notMem_variablesAmong_append (hc : ∀ q ∈ ps, q.Contained (· = n) [])
    (hr : ∀ chan vars body, receive chan vars body ∈ ps ++ rest → n ∉ vars)
    (hrest : (∀ q ∈ ps.flatMap children, q.Contained (· = n) []) →
      ∀ known, n ∉ variablesAmong known rest) :
    n ∉ variablesAmong known (ps ++ rest) := by
  induction ps generalizing known with
  | nil => exact hrest (by simp) known
  | cons q ps ih =>
    obtain ⟨hq, hps⟩ := List.forall_mem_cons.mp hc
    have hr' : ∀ chan vars body, receive chan vars body ∈ ps ++ rest → n ∉ vars :=
      fun chan vars body hm => hr chan vars body (List.mem_cons_of_mem q hm)
    -- Whatever `q` adds to what is known, the nodes behind it come next, with its children among
    -- those below.
    have hleft : ∀ {known}, (∀ r ∈ q.children, r.Contained (· = n) []) →
        n ∉ variablesAmong known (ps ++ rest) := by
      intro known hchildren
      refine ih hps hr' fun hbelow => hrest ?_
      rw [List.flatMap_cons]
      exact List.forall_mem_append.mpr ⟨hchildren, hbelow⟩
    rw [List.cons_append]
    cases q with
    | nil => exact hleft (by simp [children])
    | send chan values =>
      rw [Contained] at hq
      rw [variablesAmong, List.mem_append, not_or]
      refine ⟨fun hv => ?_, hleft (by simp [children])⟩
      exact List.not_mem_nil (hq n (List.mem_cons_of_mem chan (List.mem_of_mem_filter hv)) rfl)
    | receive chan vars body =>
      have hv : n ∉ vars := hr chan vars body List.mem_cons_self
      rw [Contained] at hq
      have hbody : body.Contained (· = n) [] := by
        refine hq.2.mono fun m _ hm => ⟨hm, fun hin => ?_⟩
        rw [List.append_nil, List.mem_reverse] at hin
        exact absurd (hm ▸ hin) hv
      rw [variablesAmong, List.mem_append, not_or]
      exact ⟨hv, hleft (by simpa [children] using hbody)⟩
    | par qs =>
      rw [Contained] at hq
      exact hleft hq
    | replicate body =>
      rw [Contained] at hq
      exact hleft (by simpa [children] using hq)
    | restrict name body =>
      rw [variablesAmong]
      -- A restriction of the name itself makes it known, and then it can only be received.
      by_cases hname : n = name
      · exact notMem_variablesAmong_of_known (hname ▸ List.mem_cons_self) hr'
      · rw [Contained] at hq
        have hbody : body.Contained (· = n) [] := by
          refine hq.mono fun m _ hm => ⟨hm, fun hin => ?_⟩
          exact absurd (hm.symm.trans (List.mem_singleton.mp hin)) hname
        exact hleft (by simpa [children] using hbody)

theorem notMem_variablesAmong_generations (k : Nat) (hc : ∀ q ∈ ps, q.Contained (· = n) [])
    (hr : ∀ chan vars body, receive chan vars body ∈ generations k ps → n ∉ vars) :
    n ∉ variablesAmong known (generations k ps) := by
  induction k generalizing known ps with
  | zero => exact List.not_mem_nil
  | succ k ih =>
    rw [generations] at hr ⊢
    apply notMem_variablesAmong_append hc hr
    intro hchildren known
    apply ih hchildren
    exact fun chan vars body hm => hr chan vars body (List.mem_append_right ps hm)

end Variables

variable {ν : Type} {p : Process ν} {n : ν}

theorem mem_breadthFirst_receive : (∃ q ∈ p.breadthFirst, ∃ chan vars body,
      q = receive chan vars body ∧ n ∈ vars) ↔ ∃ i ∈ p.inputs, n ∈ i.2 := by
  have hstep : ∀ q : Process ν, (∃ i ∈ q.inputs, n ∈ i.2) ↔
      (∃ chan vars body, q = receive chan vars body ∧ n ∈ vars) ∨
        ∃ r ∈ q.children, ∃ i ∈ r.inputs, n ∈ i.2 := by
    intro q
    cases q with
    | par ps =>
      simp only [inputs, children, List.mem_flatMap, reduceCtorEq, false_and, exists_false, false_or]
      constructor
      · rintro ⟨i, ⟨r, hr, hi⟩, hn⟩
        exact ⟨r, hr, i, hi, hn⟩
      · rintro ⟨r, hr, i, hi, hn⟩
        exact ⟨i, ⟨r, hr, hi⟩, hn⟩
    | _ => simp [inputs, children]
  exact exists_mem_breadthFirst hstep p

/-- In a bound process a node holds only what it introduces, so it holds its sort if that has it. -/
theorem WellBound.everywhere_holdsItsSort {s : Store} {introduced : Name → Prop}
    {scope : Scope Name} {p : Process Name} (h : p.WellBound s.label introduced scope)
    (outside : p.ReceivesOutside s.label) (received : ∀ i ∈ p.inputs, ∀ v ∈ i.2, s.sort v = .var)
    (restricted : ∀ n ∈ p.restrictedNames, s.sort n = .name) :
    p.Everywhere (HoldsItsSort s) := by
  induction p generalizing scope with
  | nil =>
    rw [everywhere_nil]
    trivial
  | send chan values =>
    rw [everywhere_send]
    trivial
  | receive chan vars body ih =>
    rw [WellBound] at h
    rw [ReceivesOutside, inputs, List.forall_mem_cons] at outside
    rw [inputs, List.forall_mem_cons] at received
    rw [restrictedNames] at restricted
    rw [everywhere_receive]
    refine ⟨fun n hn hl => received.1 n ?_, ih h.2 outside.2 received.2 restricted⟩
    -- What the variables hold by their labels is one of them.
    rw [free_eq_unbound outside.2] at hn
    have hheld := (h.2.isResolved_of_unbound hn).mem_of_label_mem (by simpa using hl)
    exact List.mem_reverse.mp hheld
  | par ps ih =>
    rw [WellBound] at h
    rw [ReceivesOutside, inputs] at outside
    rw [inputs] at received
    rw [restrictedNames] at restricted
    rw [everywhere_par]
    refine ⟨trivial, fun q hq => ih q hq (h q hq) ?_ ?_ ?_⟩
    · exact fun i hi => outside i (List.mem_flatMap.mpr ⟨q, hq, hi⟩)
    · exact fun i hi => received i (List.mem_flatMap.mpr ⟨q, hq, hi⟩)
    · exact fun n hn => restricted n (List.mem_flatMap.mpr ⟨q, hq, hn⟩)
  | replicate body ih =>
    rw [WellBound] at h
    rw [ReceivesOutside, inputs] at outside
    rw [inputs] at received
    rw [restrictedNames] at restricted
    rw [everywhere_replicate]
    exact ⟨trivial, ih h outside received restricted⟩
  | restrict name body ih =>
    rw [WellBound] at h
    rw [ReceivesOutside, inputs] at outside
    rw [inputs] at received
    rw [restrictedNames, List.forall_mem_append] at restricted
    rw [everywhere_restrict]
    refine ⟨fun n hn hl => restricted.2 n ?_, ih h outside received restricted.1⟩
    rw [free_eq_unbound outside] at hn
    have hres : IsResolved s.label introduced ([name] ++ scope) n := h.isResolved_of_unbound hn
    exact hres.mem_of_label_mem (by simpa using hl)

namespace Orderly

variable {p : Process Name} {n : Name}

theorem notMem_variables (h : p.Orderly) (hn : n ∈ p.restrictedNames) : n ∉ p.variables := by
  have hbinders := p.binders_perm
  have hin : n ∈ p.binders := hbinders.symm.subset (List.mem_append_right _ hn)
  have hcontained : p.Contained (· = n) [] :=
    h.contained.mono fun m _ hm => ⟨hm ▸ hin, id⟩
  have hapart := (List.nodup_append.mp (hbinders.nodup_iff.mp h.nodup)).2.2
  apply notMem_variablesAmong_generations
  · exact fun q hq => List.mem_singleton.mp hq ▸ hcontained
  · intro chan vars body hmet hv
    obtain ⟨i, hi, hni⟩ := mem_breadthFirst_receive.mp ⟨_, hmet, chan, vars, body, rfl, hv⟩
    exact hapart n (List.mem_flatMap.mpr ⟨i, hi, hni⟩) n hn rfl

end Orderly

theorem mem_variables_of_received {p : Process Name} {n : Name} {i : Name × List Name}
    (hi : i ∈ p.inputs) (hn : n ∈ i.2) : n ∈ p.variables := by
  obtain ⟨_, hmet, chan, vars, body, rfl, hv⟩ := mem_breadthFirst_receive.mpr ⟨i, hi, hn⟩
  exact mem_variablesAmong_of_receive hmet hv

/-- Once the names of a bound process have the sorts that it shows, its nodes hold their sorts. -/
theorem Orderly.everywhere_holdsItsSort {s : Store} {p : Process Name} (h : p.Orderly)
    (bound : p.bind s.label = p) (outside : p.ReceivesOutside s.label)
    (sorted : ∀ n ∈ p.occurrences, s.sort n = if n ∈ p.variables then .var else .name) :
    p.Everywhere (HoldsItsSort s) := by
  have hwell := h.wellBound_bind s.label
  rw [bound] at hwell
  have hbinder : ∀ n ∈ p.inputs.flatMap (·.2) ++ p.restrictedNames, n ∈ p.occurrences :=
    fun n hn => p.binders_subset_occurrences (p.binders_perm.symm.subset hn)
  apply hwell.everywhere_holdsItsSort outside
  · intro i hi v hv
    have hin := hbinder v (List.mem_append_left _ (List.mem_flatMap.mpr ⟨i, hi, hv⟩))
    rw [sorted v hin, if_pos (mem_variables_of_received hi hv)]
  · intro n hn
    rw [sorted n (hbinder n (List.mem_append_right _ hn)), if_neg (h.notMem_variables hn)]

end Process

theorem Store.Plain.identifySorts {s : Store} (h : s.Plain) (p : Process Name) :
    ∃ t, s.identifySorts p = ⟨t, none⟩ ∧ (∀ n, t.label n = s.label n) ∧
      ∀ n, s.isLive n → t.sort n = if n ∈ p.variables then .var else .name := by
  obtain ⟨t, ht, -, hget⟩ := identifySorts_eq h.writable p
  refine ⟨t, ht, fun n => ?_, fun n live => ?_⟩
  · rw [label, label, hget, Option.map_map]
    congr 2
    funext e
    rw [Function.comp_apply]
    split <;> rfl
  · obtain ⟨e, he⟩ := Option.isSome_iff_exists.mp live
    rw [Store.sort, hget, he, Option.map_some, Option.map_some, Option.getD_some]
    split
    · rfl
    · exact (h.of_get? he).1

namespace Program

open Process

/-- At every place the labels that are listed are those that are free there, in ascending order. -/
theorem free_labels_listed {source : String} {p : Program} (parsed : Program.parse source = .ok p)
    (outside : ∀ i ∈ (p.process.map p.store.label).inputs, i.1 ∉ i.2) :
    let bound := (p.run .bind).1
    let sorted := (bound.run .identifySorts).1
    (bound.run .identifySorts).2.result = .ok .none ∧
      sorted.process.map sorted.store.label = p.process.map p.store.label ∧
      ∀ place q, sorted.process.at? place = some q →
        let names := (q.freeNames sorted.store).map sorted.store.label
        let vars := (q.freeVars sorted.store).map sorted.store.label
        (∀ l, l ∈ names ∨ l ∈ vars ↔ l ∈ (q.map sorted.store.label).freeLabels) ∧
          names.Pairwise (· < ·) ∧ vars.Pairwise (· < ·) := by
  have hlive := (bound_of_parse parsed).live
  have horderly := (Orderly.of_parse parsed).bind p.store.label
  have hplain : p.store.Plain := plain_of_parse parsed
  generalize hr : p.process.bind p.store.label = r at hlive horderly
  obtain ⟨t, ht, hlabel, hsort⟩ := (hplain.retain r.occurrences).identifySorts r
  let u := t.retain r.occurrences
  have hu : ∀ n ∈ r.occurrences, u.label n = p.store.label n := by
    intro n hn
    rw [Store.label_retain t hn, hlabel n, Store.label_retain p.store hn]
  have hmap : r.map u.label = p.process.map p.store.label := by
    rw [map_congr hu, ← hr, map_bind]
  have heverywhere : r.Everywhere (HoldsItsSort u) := by
    apply horderly.everywhere_holdsItsSort
    · rw [bind_congr hu, ← hr, bind_bind]
    · exact .of_map (hmap ▸ outside)
    · intro n hn
      have hretained : (p.store.retain r.occurrences).isLive n := by
        rw [Store.isLive, Store.get?_retain, if_pos hn]
        exact hlive n hn
      rw [← (t.agreesOn_retain r.occurrences).sort hn, hsort n hretained]
  have hrun : (p.run .bind).1.run .identifySorts =
      (⟨r, u⟩, Operation.ofWritten r ⟨t, none⟩) := by
    simp only [run, Operation.run, hr, ht]
    rfl
  intro bound sorted
  have hsorted : sorted = ⟨r, u⟩ := congrArg Prod.fst hrun
  rw [hsorted]
  refine ⟨by rw [hrun]; rfl, hmap, fun place q hat => ?_⟩
  have hq : q.Everywhere (HoldsItsSort u) := by
    intro way node hway
    refine heverywhere (place ++ way) node ?_
    rw [at?_append, hat]
    exact hway
  exact ⟨fun l => mem_free_lists hq, pairwise_freeNames u q, pairwise_freeVars u q⟩

/-- Two variables have one label, a restriction in between uses it again, and names stay free. -/
theorem free_labels_listed_shadowed :
    ∃ p, Program.parse "(new b)(c<b> | a(x,x).(new x)(x<b,a> | b(y).(y<x> | d<y>)))" = .ok p ∧
      let sorted := ((p.run .bind).1.run .identifySorts).1
      ∀ place q, sorted.process.at? place = some q → ∀ l,
        l ∈ (q.freeNames sorted.store).map sorted.store.label ∨
          l ∈ (q.freeVars sorted.store).map sorted.store.label ↔
        l ∈ (q.map sorted.store.label).freeLabels := by
  obtain ⟨p, parsed, outside⟩ : ∃ p,
      Program.parse "(new b)(c<b> | a(x,x).(new x)(x<b,a> | b(y).(y<x> | d<y>)))" = .ok p ∧
      ∀ i ∈ (p.process.map p.store.label).inputs, i.1 ∉ i.2 := by
    decide +kernel
  have hlisted := (free_labels_listed parsed outside).2.2
  exact ⟨p, parsed, fun place q hat => (hlisted place q hat).1⟩

end Program
end PiCalculus
