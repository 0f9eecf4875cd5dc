import Mathlib
import PiCalculus.Binding
import PiCalculus.Proofs.Process.Gathering
import PiCalculus.Proofs.Process.Places

/-! What is asked of the names that are used in a process, in view of those that are introduced around
them. Whatever it is, it is kept where parts of a process are taken out, and it tells where a name can
occur. -/

namespace PiCalculus.Process

variable {ν : Type} {label : ν → String} {scope scope' : Scope ν} {p q : Process ν}

/-- What binders have in force inside, with labels that are still all different. -/
theorem nodup_receive {chan : ν} {vars : List ν} {body : Process ν}
    (h : ((scope ++ (receive chan vars body).binders).map label).Nodup) :
    ((vars.reverse ++ scope ++ body.binders).map label).Nodup := by
  refine ((List.Perm.map label ?_).nodup_iff).mp h
  rw [binders, ← List.append_assoc]
  exact (List.perm_append_comm.trans ((List.reverse_perm vars).symm.append_right scope)).append_right _

theorem nodup_restrict {name : ν} {body : Process ν}
    (h : ((scope ++ (restrict name body).binders).map label).Nodup) :
    ((name :: scope ++ body.binders).map label).Nodup := by
  refine ((List.Perm.map label ?_).nodup_iff).mp h
  rw [binders]
  exact List.perm_middle

theorem binders_sublist_par {ps : List (Process ν)} (hp : p ∈ ps) :
    p.binders.Sublist (par ps).binders := by
  obtain ⟨as, bs, rfl⟩ := List.append_of_mem hp
  rw [binders, List.flatMap_append, List.flatMap_cons]
  exact (List.sublist_append_left ..).trans (List.sublist_append_right ..)

theorem nodup_component {ps : List (Process ν)}
    (h : ((scope ++ (par ps).binders).map label).Nodup) (hp : p ∈ ps) :
    ((scope ++ p.binders).map label).Nodup :=
  h.sublist (((List.Sublist.refl scope).append (binders_sublist_par hp)).map label)

theorem nodup_scope (h : ((scope ++ p.binders).map label).Nodup) : (scope.map label).Nodup :=
  h.sublist ((List.sublist_append_left ..).map label)

/-- A process is good in a scope if every name that it uses is as it is asked to be of the names in scope
around it, where some of its variables are in scope for the channel of a receive. It does not matter
whether other names are in scope than the one that is asked about. -/
structure Scoped (asks : Scope ν → ν → Prop) (side : List ν → List ν)
    (good : Scope ν → Process ν → Prop) : Prop where
  leave : ∀ {inner scope : Scope ν} {name n : ν}, asks (inner ++ name :: scope) n → n ≠ name →
    asks (inner ++ scope) n
  side_subset : ∀ vars, side vars ⊆ vars
  nil : ∀ scope, good scope .nil
  send : ∀ scope chan values, good scope (.send chan values) ↔
    ∀ n ∈ chan :: values, asks scope n
  receive : ∀ scope chan vars body, good scope (.receive chan vars body) ↔
    asks (side vars ++ scope) chan ∧ good (vars.reverse ++ scope) body
  par : ∀ scope ps, good scope (.par ps) ↔ ∀ p ∈ ps, good scope p
  replicate : ∀ scope body, good scope (.replicate body) ↔ good scope body
  restrict : ∀ scope name body, good scope (.restrict name body) ↔ good (name :: scope) body

namespace Scoped

variable {asks asks' : Scope ν → ν → Prop} {side side' : List ν → List ν}
  {good good' : Scope ν → Process ν → Prop} {n : ν} {path : List Nat} {drop : ν → Bool}

theorem mono (h : Scoped asks side good) (h' : Scoped asks' side good')
    (hasks : ∀ inner, ∀ n ∈ p.usedNames, asks (inner ++ scope) n → asks' (inner ++ scope') n)
    (hp : good scope p) : good' scope' p := by
  -- The names that are introduced on the way down stay in front of both scopes.
  have key : ∀ inner, good (inner ++ scope) p → good' (inner ++ scope') p := by
    clear hp
    intro inner hp
    induction p generalizing inner with
    | nil => exact h'.nil _
    | send chan values =>
      rw [h.send] at hp
      rw [usedNames] at hasks
      rw [h'.send]
      exact fun n hn => hasks inner n hn (hp n hn)
    | receive chan vars body ih =>
      rw [h.receive, ← List.append_assoc, ← List.append_assoc] at hp
      rw [usedNames] at hasks
      rw [h'.receive, ← List.append_assoc, ← List.append_assoc]
      refine ⟨hasks _ chan List.mem_cons_self hp.1, ih (fun inner n hn => ?_) _ hp.2⟩
      exact hasks inner n (List.mem_cons_of_mem _ hn)
    | par ps ih =>
      rw [h.par] at hp
      rw [usedNames] at hasks
      rw [h'.par]
      refine fun p hm => ih p hm (fun inner n hn => ?_) inner (hp p hm)
      exact hasks inner n (List.mem_flatMap.mpr ⟨p, hm, hn⟩)
    | replicate body ih =>
      rw [h.replicate] at hp
      rw [usedNames] at hasks
      rw [h'.replicate]
      exact ih hasks inner hp
    | restrict name body ih =>
      rw [h.restrict, ← List.cons_append] at hp
      rw [usedNames] at hasks
      rw [h'.restrict, ← List.cons_append]
      exact ih hasks _ hp
  exact key [] hp

/-- Where the labels of the names in scope and of those that are introduced are all different, those in
scope at every use are so. -/
theorem imp_of_nodup (h : Scoped asks side good) (h' : Scoped asks' side' good')
    (hsend : ∀ {scope n}, (scope.map label).Nodup → asks scope n → asks' scope n)
    (hreceive : ∀ {scope vars n}, ((vars.reverse ++ scope).map label).Nodup →
      asks (side vars ++ scope) n → asks' (side' vars ++ scope) n)
    (hp : good scope p) (hd : ((scope ++ p.binders).map label).Nodup) : good' scope p := by
  induction p generalizing scope with
  | nil => exact h'.nil scope
  | send chan values =>
    rw [h.send] at hp
    rw [h'.send]
    exact fun n hn => hsend (nodup_scope hd) (hp n hn)
  | receive chan vars body ih =>
    rw [h.receive] at hp
    rw [h'.receive]
    have hinner := nodup_receive hd
    exact ⟨hreceive (nodup_scope hinner) hp.1, ih hp.2 hinner⟩
  | par ps ih =>
    rw [h.par] at hp
    rw [h'.par]
    exact fun p hm => ih p hm (hp p hm) (nodup_component hd hm)
  | replicate body ih =>
    rw [h.replicate] at hp
    rw [h'.replicate]
    exact ih hp (by rwa [binders] at hd)
  | restrict name body ih =>
    rw [h.restrict] at hp
    rw [h'.restrict]
    exact ih hp (nodup_restrict hd)

/-- The names in scope at a place are introduced on the way there, or they are in scope outside. -/
theorem leads (h : Scoped asks side good) (l : Leads path p q) (hp : good scope p) :
    ∃ inner outside, good inner q ∧ (inner ++ q.binders ++ outside).Perm (scope ++ p.binders) := by
  induction l generalizing scope with
  | here p => exact ⟨scope, [], hp, by rw [List.append_nil]⟩
  | @component as path p q l bs ih =>
    rw [h.par] at hp
    obtain ⟨inner, outside, hq, hperm⟩ := ih (hp p (by simp))
    refine ⟨inner, outside ++ (as.flatMap binders ++ bs.flatMap binders), hq, ?_⟩
    rw [binders, List.flatMap_append, List.flatMap_cons, ← List.append_assoc]
    refine (hperm.append_right _).trans ?_
    rw [List.append_assoc]
    refine List.Perm.append_left scope ?_
    rw [← List.append_assoc, ← List.append_assoc]
    exact List.perm_append_comm.append_right _
  | replicate l ih =>
    rw [h.replicate] at hp
    rw [binders]
    exact ih hp
  | @restrict path n p q l ih =>
    rw [h.restrict] at hp
    obtain ⟨inner, outside, hq, hperm⟩ := ih hp
    refine ⟨inner, outside, hq, hperm.trans ?_⟩
    rw [binders]
    exact List.perm_middle.symm

theorem everywhere (h : Scoped asks side good) (hp : good scope p) :
    p.Everywhere fun q => ∃ around, good around q := by
  induction p generalizing scope with
  | nil => exact everywhere_nil.mpr ⟨scope, hp⟩
  | send chan values => exact everywhere_send.mpr ⟨scope, hp⟩
  | receive chan vars body ih =>
    exact everywhere_receive.mpr ⟨⟨scope, hp⟩, ih ((h.receive ..).mp hp).2⟩
  | par ps ih =>
    exact everywhere_par.mpr ⟨⟨scope, hp⟩, fun q hq => ih q hq ((h.par ..).mp hp q hq)⟩
  | replicate body ih =>
    exact everywhere_replicate.mpr ⟨⟨scope, hp⟩, ih ((h.replicate ..).mp hp)⟩
  | restrict name body ih =>
    exact everywhere_restrict.mpr ⟨⟨scope, hp⟩, ih ((h.restrict ..).mp hp)⟩

theorem of_append (h : Scoped asks side good) {inner : Scope ν} (hn : asks (inner ++ scope) n)
    (hout : n ∉ inner) : asks scope n := by
  induction inner with
  | nil => exact hn
  | cons name inner ih =>
    rw [List.mem_cons, not_or] at hout
    have hfirst : asks ([] ++ name :: (inner ++ scope)) n := hn
    have hrest : asks ([] ++ (inner ++ scope)) n := h.leave hfirst hout.1
    exact ih hrest hout.2

/-- A name that no binder inside holds, whatever the labels are, is as asked of the scope outside. -/
theorem of_unbound (h : Scoped asks List.reverse good) (hp : good scope p)
    (hn : n ∈ p.unbound label) : asks scope n := by
  induction p generalizing scope with
  | nil => simp [unbound] at hn
  | send chan values =>
    rw [h.send] at hp
    rw [unbound] at hn
    exact hp n hn
  | receive chan vars body ih =>
    rw [h.receive] at hp
    simp only [unbound, List.mem_filter, List.mem_cons, decide_eq_true_eq] at hn
    obtain ⟨hmem, hl⟩ := hn
    have hinner : asks (vars.reverse ++ scope) n := by
      rcases hmem with rfl | hmem
      · exact hp.1
      · exact ih hp.2 hmem
    refine h.of_append hinner fun hv => hl ?_
    exact List.mem_map_of_mem (List.mem_reverse.mp hv)
  | par ps ih =>
    rw [h.par] at hp
    rw [unbound] at hn
    obtain ⟨p, hm, hnp⟩ := List.mem_flatMap.mp hn
    exact ih p hm (hp p hm) hnp
  | replicate body ih =>
    rw [h.replicate] at hp
    rw [unbound] at hn
    exact ih hp hn
  | restrict name body ih =>
    rw [h.restrict] at hp
    simp only [unbound, List.mem_filter, decide_eq_true_eq] at hn
    have hinner : asks ([name] ++ scope) n := ih hp hn.1
    refine h.of_append hinner fun hname => hn.2 ?_
    rw [List.mem_singleton.mp hname]

theorem of_free (h : Scoped asks (fun _ => []) good) (hp : good scope p)
    (hn : n ∈ p.free label) : asks scope n := by
  induction p generalizing scope with
  | nil => simp [free] at hn
  | send chan values =>
    rw [h.send] at hp
    rw [free] at hn
    exact hp n hn
  | receive chan vars body ih =>
    rw [h.receive] at hp
    simp only [free, List.mem_cons, List.mem_filter, decide_eq_true_eq] at hn
    rcases hn with rfl | ⟨hn, hl⟩
    · exact hp.1
    · refine h.of_append (ih hp.2 hn) fun hv => hl ?_
      exact List.mem_map_of_mem (List.mem_reverse.mp hv)
  | par ps ih =>
    rw [h.par] at hp
    rw [free] at hn
    obtain ⟨p, hm, hnp⟩ := List.mem_flatMap.mp hn
    exact ih p hm (hp p hm) hnp
  | replicate body ih =>
    rw [h.replicate] at hp
    rw [free] at hn
    exact ih hp hn
  | restrict name body ih =>
    rw [h.restrict] at hp
    simp only [free, List.mem_filter, decide_eq_true_eq] at hn
    have hinner : asks ([name] ++ scope) n := ih hp hn.1
    refine h.of_append hinner fun hname => hn.2 ?_
    rw [List.mem_singleton.mp hname]

/-- A name of which it is asked to be in scope occurs below the node that introduces it only. -/
theorem mem_occurrences (h : Scoped asks side good) (hin : ∀ {scope}, asks scope n → n ∈ scope)
    (hp : good scope p) (hn : n ∈ p.occurrences) : n ∈ scope ∨ n ∈ p.binders := by
  induction p generalizing scope with
  | nil => simp [occurrences] at hn
  | send chan values =>
    rw [h.send] at hp
    rw [occurrences] at hn
    exact .inl (hin (hp n hn))
  | receive chan vars body ih =>
    rw [h.receive] at hp
    simp only [occurrences, List.mem_cons, List.mem_append] at hn
    simp only [binders, List.mem_append]
    have hinner : n ∈ vars.reverse ++ scope ∨ n ∈ body.binders ∨ n ∈ vars := by
      rcases hn with rfl | hn | hn
      · refine .inl (List.mem_append.mpr ((List.mem_append.mp (hin hp.1)).imp_left fun hv => ?_))
        exact List.mem_reverse.mpr (h.side_subset vars hv)
      · exact .inr (.inr hn)
      · exact (ih hp.2 hn).imp_right .inl
    simp only [List.mem_append, List.mem_reverse] at hinner
    tauto
  | par ps ih =>
    rw [h.par] at hp
    rw [occurrences] at hn
    obtain ⟨p, hm, hnp⟩ := List.mem_flatMap.mp hn
    rw [binders]
    exact (ih p hm (hp p hm) hnp).imp_right fun hb => List.mem_flatMap.mpr ⟨p, hm, hb⟩
  | replicate body ih =>
    rw [h.replicate] at hp
    rw [occurrences] at hn
    rw [binders]
    exact ih hp hn
  | restrict name body ih =>
    rw [h.restrict] at hp
    rw [occurrences, List.mem_cons] at hn
    rw [binders, List.mem_cons]
    rcases hn with rfl | hn
    · exact .inr (.inl rfl)
    · rcases ih hp hn with hs | hb
      · exact (List.mem_cons.mp hs).symm.imp_right .inl
      · exact .inr (.inr hb)

/-- A sibling uses the names in scope and its own, so it does not use such a name of another component. -/
theorem notMem_beside (h : Scoped asks side good) (hin : ∀ {scope}, asks scope n → n ∈ scope)
    {as bs : List (Process ν)} (hp : good scope (.par (as ++ q :: bs)))
    (hd : (scope ++ (Process.par (as ++ q :: bs)).binders).Nodup) (hn : n ∈ q.binders) :
    n ∉ as.flatMap occurrences ∧ n ∉ bs.flatMap occurrences := by
  rw [h.par] at hp
  simp only [binders, List.flatMap_append, List.flatMap_cons, List.nodup_append,
    List.mem_append] at hd
  obtain ⟨-, ⟨-, ⟨-, -, hafter⟩, hbefore⟩, hout⟩ := hd
  have sibling : ∀ r ∈ as ++ q :: bs, n ∉ r.binders → n ∉ r.occurrences := by
    intro r hr hb ho
    rcases h.mem_occurrences hin (hp r hr) ho with hs | hs
    · exact hout n hs n (.inr (.inl hn)) rfl
    · exact hb hs
  simp only [List.mem_flatMap, not_exists, not_and]
  refine ⟨fun r hr => sibling r (by simp [hr]) fun hb => ?_,
    fun r hr => sibling r (by simp [hr]) fun hb => ?_⟩
  · exact hbefore n (List.mem_flatMap.mpr ⟨r, hr, hb⟩) n (.inl hn) rfl
  · exact hafter n hn n (List.mem_flatMap.mpr ⟨r, hr, hb⟩) rfl

/-- Where names are introduced once, such a name does not occur outside a place that introduces it. -/
theorem notMem_outside (h : Scoped asks side good) (hin : ∀ {scope}, asks scope n → n ∈ scope)
    (hp : good scope p) (hd : (scope ++ p.binders).Nodup) (hat : p.at? path = some q)
    (hn : n ∈ q.binders) : n ∉ (p.replaceAt path .nil).occurrences := by
  have inside : ∀ {p : Process ν} {path}, p.at? path = some q → n ∈ p.binders :=
    fun hat => gathers_binders.subset_of_at? hat hn
  induction path generalizing p scope with
  | nil => simp [replaceAt, occurrences]
  | cons i path ih =>
    rw [at?] at hat
    obtain ⟨child, hchild, hrest⟩ := Option.bind_eq_some_iff.mp hat
    have hmem : child ∈ p.children := List.mem_of_getElem? hchild
    cases p with
    | nil => cases hmem
    | send chan values => cases hmem
    | receive chan vars body =>
      obtain ⟨rfl, rfl⟩ := of_getElem?_singleton hchild
      rw [h.receive] at hp
      rw [binders] at hd
      have hd' : (vars.reverse ++ scope ++ body.binders).Nodup := by
        refine (List.Perm.nodup_iff ?_).mp hd
        rw [← List.append_assoc]
        exact (List.perm_append_comm.trans
          ((List.reverse_perm vars).symm.append_right scope)).append_right _
      have hbody := ih hp.2 hd' hrest
      have hout := (List.nodup_append.mp hd').2.2
      have notVar : n ∉ vars := fun hv =>
        hout n (List.mem_append_left _ (List.mem_reverse.mpr hv)) n (inside hrest) rfl
      rw [replaceAt, occurrences, List.mem_cons, List.mem_append, not_or, not_or]
      refine ⟨?_, notVar, hbody⟩
      rintro rfl
      have hscope := (List.mem_append.mp (hin hp.1)).resolve_left fun hv =>
        notVar (h.side_subset vars hv)
      exact hout _ (List.mem_append_right _ hscope) _ (inside hrest) rfl
    | par ps =>
      obtain ⟨as, bs, rfl, rfl⟩ := split_of_getElem? hchild
      obtain ⟨hbefore, hafter⟩ := h.notMem_beside hin hp hd (inside hrest)
      rw [replaceAt_component, occurrences, List.flatMap_append, List.flatMap_cons, List.mem_append,
        List.mem_append, not_or, not_or]
      refine ⟨hbefore, ih ((h.par ..).mp hp child (by simp)) ?_ hrest, hafter⟩
      rw [binders, List.flatMap_append, List.flatMap_cons] at hd
      refine hd.sublist ((List.Sublist.refl scope).append ?_)
      exact (List.sublist_append_left ..).trans (List.sublist_append_right ..)
    | replicate body =>
      obtain ⟨rfl, rfl⟩ := of_getElem?_singleton hchild
      rw [h.replicate] at hp
      rw [binders] at hd
      rw [replaceAt, occurrences]
      exact ih hp hd hrest
    | restrict name body =>
      obtain ⟨rfl, rfl⟩ := of_getElem?_singleton hchild
      rw [h.restrict] at hp
      rw [binders] at hd
      have hd' := List.perm_middle.nodup_iff.mp hd
      rw [replaceAt, occurrences, List.mem_cons, not_or]
      refine ⟨?_, ih hp hd' hrest⟩
      rintro rfl
      exact (List.nodup_append.mp hd').2.2 n List.mem_cons_self n (inside hrest) rfl

/-- Restrictions of names that are not used may be left out. -/
theorem dropRestrictions (h : Scoped asks side good) (hp : good scope p)
    (unused : p.DropsUnused drop) : good scope (p.dropRestrictions drop) := by
  induction p generalizing scope with
  | nil => rwa [Process.dropRestrictions]
  | send chan values => rwa [Process.dropRestrictions]
  | receive chan vars body ih =>
    rw [h.receive] at hp
    rw [DropsUnused] at unused
    rw [Process.dropRestrictions, h.receive]
    exact ⟨hp.1, ih hp.2 unused⟩
  | par ps ih =>
    rw [h.par] at hp
    rw [DropsUnused] at unused
    rw [Process.dropRestrictions, h.par]
    intro q hq
    obtain ⟨p, hm, rfl⟩ := List.mem_map.mp hq
    exact ih p hm (hp p hm) (unused p hm)
  | replicate body ih =>
    rw [h.replicate] at hp
    rw [DropsUnused] at unused
    rw [Process.dropRestrictions, h.replicate]
    exact ih hp unused
  | restrict name body ih =>
    rw [h.restrict] at hp
    rw [DropsUnused] at unused
    have hbody := ih hp unused.2
    rw [Process.dropRestrictions]
    split
    · next hdrop =>
      refine h.mono h (fun inner n hn hasks => h.leave hasks ?_) hbody
      rintro rfl
      rw [usedNames_dropRestrictions] at hn
      exact unused.1 hdrop (body.usedNames_subset_prefixNames hn)
    · rwa [h.restrict]

theorem prune (h : Scoped asks side good) (hp : good scope p) : good scope p.prune := by
  induction p generalizing scope with
  | nil => rwa [Process.prune]
  | send chan values => rwa [Process.prune]
  | receive chan vars body ih =>
    rw [h.receive] at hp
    rw [Process.prune, h.receive]
    exact ⟨hp.1, ih hp.2⟩
  | par ps ih =>
    rw [h.par] at hp
    have hfilter : ∀ q ∈ (ps.map Process.prune).filter (!·.isNil), good scope q := by
      intro q hq
      obtain ⟨p, hm, rfl⟩ := List.mem_map.mp (List.mem_filter.mp hq).1
      exact ih p hm (hp p hm)
    rw [Process.prune]
    split
    · exact h.nil scope
    · next q hone => exact hfilter q (by simp [hone])
    · rwa [h.par]
  | replicate body ih =>
    rw [h.replicate] at hp
    rw [Process.prune]
    split
    · exact h.nil scope
    · rw [h.replicate]
      exact ih hp
  | restrict name body ih =>
    rw [h.restrict] at hp
    rw [Process.prune]
    split
    · exact h.nil scope
    · rw [h.restrict]
      exact ih hp

end Scoped
end PiCalculus.Process
