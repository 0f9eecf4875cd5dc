import Mathlib
import PiCalculus.Proofs.Process.Gathering

/-! What one communication does to a process and to the labels of its names. -/

namespace PiCalculus

namespace Store

theorem get?_foldl_modify {names : List Name} (s : Store) (change : Name → Entry → Entry)
    (skips : Name → Bool) {n : Name} (twice : ∀ e, change n (change n e) = change n e) :
    (names.foldl (fun t n => if skips n then t else t.modify n (change n)) s).get? n =
      if n ∈ names ∧ ¬ skips n then (s.get? n).map (change n) else s.get? n := by
  induction names generalizing s with
  | nil => simp
  | cons m names ih =>
    rw [List.foldl_cons, ih]
    by_cases hm : skips m
    · rw [if_pos hm]
      by_cases hn : n = m <;> simp_all
    · rw [if_neg hm, get?_modify]
      by_cases hn : n = m
      · subst hn
        cases s.get? n <;> simp_all
      · simp [hn]

/-- Relabelling gives each of the names that is not constant the new label for its old one. -/
theorem get?_relabel (s : Store) (names : List Name) (newLabel : String → String) (n : Name) :
    (s.relabel names newLabel).get? n = (s.get? n).map fun e =>
      if n ∈ names ∧ ¬ e.constant then { e with label := newLabel e.label } else e := by
  unfold relabel
  rw [get?_foldl_modify s (fun n e => { e with label := newLabel (s.label n) }) s.isConstant
    fun e => rfl]
  unfold isConstant label
  cases h : s.get? n with
  | none => simp
  | some e => by_cases hn : n ∈ names <;> by_cases hc : e.constant <;> simp [hn, hc]

theorem isLive_relabel (s : Store) (names : List Name) (newLabel : String → String) (n : Name) :
    (s.relabel names newLabel).isLive n = s.isLive n := by
  rw [isLive, isLive, get?_relabel, Option.isSome_map]

theorem isConstant_relabel (s : Store) (names : List Name) (newLabel : String → String)
    (n : Name) : (s.relabel names newLabel).isConstant n = s.isConstant n := by
  rw [isConstant, isConstant, get?_relabel, Option.map_map]
  cases s.get? n with
  | none => rfl
  | some e =>
    rw [Option.map_some, Option.map_some, Function.comp_apply]
    split <;> rfl

theorem label_relabel {s : Store} {names : List Name} {newLabel : String → String} {n : Name}
    (live : s.isLive n) (mutable : s.isConstant n = false) :
    (s.relabel names newLabel).label n =
      if n ∈ names then newLabel (s.label n) else s.label n := by
  obtain ⟨e, he⟩ := Option.isSome_iff_exists.mp live
  have hc : e.constant = false := by simpa [isConstant, he] using mutable
  unfold label
  rw [get?_relabel, he]
  by_cases hn : n ∈ names <;> simp [hn, hc]

/-- A name keeps its label where it is not relabelled or where its new label is the old one. -/
theorem label_relabel_of_fixed {s : Store} {names : List Name} {newLabel : String → String} {n : Name}
    (h : n ∈ names → newLabel (s.label n) = s.label n) :
    (s.relabel names newLabel).label n = s.label n := by
  unfold label at h ⊢
  rw [get?_relabel]
  cases he : s.get? n with
  | none => rfl
  | some e =>
    rw [he] at h
    dsimp only [Option.map_some, Option.getD_some] at h ⊢
    split
    · next hin => exact h hin.1
    · rfl

end Store

namespace Redex

variable {ν : Type}

theorem mem_senders {ps : List (Process ν)} {i : Nat} {chan : ν} {values : List ν} :
    (i, chan, values) ∈ senders ps ↔ ps[i]? = some (.send chan values) := by
  simp only [senders, List.mem_filterMap, Prod.exists]
  constructor
  · rintro ⟨p, j, hmem, hp⟩
    split at hp
    · next heq => grind
    · cases hp
  · intro h
    exact ⟨_, i, List.mk_mem_zipIdx_iff_getElem?.mpr h, rfl⟩

theorem mem_receivers {ps : List (Process ν)} {i : Nat} {chan : ν} {vars : List ν}
    {body : Process ν} :
    (i, chan, vars, body) ∈ receivers ps ↔ ps[i]? = some (.receive chan vars body) := by
  simp only [receivers, List.mem_filterMap, Prod.exists]
  constructor
  · rintro ⟨p, j, hmem, hp⟩
    split at hp
    · next heq => grind
    · cases hp
  · intro h
    exact ⟨_, i, List.mk_mem_zipIdx_iff_getElem?.mpr h, rfl⟩

/-- The two that are found stand at their places and have channels of one label. -/
theorem of_find? {label : ν → String} {isFree : ν → Bool} {ps : List (Process ν)} {r : Redex ν}
    (h : find? label isFree ps = some r) :
    ps[r.sender]? = some (.send r.chan r.values) ∧
      ∃ other, ps[r.receiver]? = some (.receive other r.vars r.body) ∧
        label other = label r.chan := by
  obtain ⟨⟨i, chan, values⟩, hs, hr⟩ := List.exists_of_findSome?_eq_some h
  obtain ⟨⟨j, other, vars, body⟩, hfind, rfl⟩ := Option.map_eq_some_iff.mp hr
  have hsend := mem_senders.mp (List.mem_filter.mp hs).1
  have hmem := List.mem_of_find?_eq_some hfind
  have hreceive := mem_receivers.mp (List.mem_filter.mp hmem).1
  exact ⟨hsend, other, hreceive, by simpa using List.find?_some hfind⟩

/-- The labels that names of the continuation have after the communication: the names in its
prefixes take the label of the value for theirs. -/
def newLabel (label : ν → String) [DecidableEq ν] (r : Redex ν) (n : ν) : String :=
  if n ∈ r.body.prefixNames then
    substitution (r.vars.map label) (r.values.map label) (label n)
  else label n

theorem newLabel_of_notMem {label : ν → String} [DecidableEq ν] {r : Redex ν} {n : ν}
    (h : label n ∉ r.vars.map label) : r.newLabel label n = label n := by
  unfold newLabel
  split
  · exact Process.substitution_of_notMem h
  · rfl

end Redex

namespace Store

variable {s : Store} {p : Process Name}

theorem of_redex? {path : List Nat} {ps : List (Process Name)} {r : Redex Name}
    (h : s.redex? p = some (path, ps, r)) :
    p.Leads path (.par ps) ∧ ps[r.sender]? = some (.send r.chan r.values) ∧
      ∃ other, ps[r.receiver]? = some (.receive other r.vars r.body) ∧
        s.label other = s.label r.chan := by
  unfold redex? at h
  simp only [Option.bind_eq_bind, Option.bind_eq_some_iff] at h
  obtain ⟨way, hfocus, q, hat, hq⟩ := h
  obtain ⟨qs, hleads⟩ := Process.leads_of_focus? hfocus
  rw [hleads.at?_eq, Option.some.injEq] at hat
  subst hat
  obtain ⟨found, hfind, heq⟩ := Option.bind_eq_some_iff.mp hq
  cases heq
  exact ⟨hleads, Redex.of_find? hfind⟩

theorem of_reduceOnce {q : Reduct} (h : s.reduceOnce p = .ok (some q)) :
    ∃ path ps r, s.redex? p = some (path, ps, r) ∧ r.values.length = r.vars.length ∧
      q = ⟨p.replaceAt path (.par (r.contract ps)),
        s.relabel r.body.prefixNames (substitution (r.vars.map s.label) (r.values.map s.label)),
        s.label r.chan⟩ := by
  unfold reduceOnce at h
  split at h
  · cases h
  · next path ps r hr =>
    refine ⟨path, ps, r, hr, ?_⟩
    unfold substitute at h
    by_cases hlen : r.values.length = r.vars.length
    · rw [if_pos (by simpa using hlen)] at h
      injection h with h
      injection h with h
      exact ⟨hlen, h.symm⟩
    · rw [if_neg (by simpa using hlen)] at h
      cases h

theorem reduceOnce_of_redex? {path : List Nat} {ps : List (Process Name)} {r : Redex Name}
    (h : s.redex? p = some (path, ps, r)) (even : r.values.length = r.vars.length) :
    s.reduceOnce p = .ok (some ⟨p.replaceAt path (.par (r.contract ps)),
      s.relabel r.body.prefixNames (substitution (r.vars.map s.label) (r.values.map s.label)),
      s.label r.chan⟩) := by
  unfold reduceOnce substitute
  rw [h]
  dsimp only
  rw [if_pos (by simpa using even)]

open Process List in
/-- What is gathered from a process is what the two that communicate have for themselves and what is
gathered from what is left. -/
theorem gathered_reduct {α : Type} {atRoot inside : Process Name → List α}
    (h : Gathers atRoot inside) (hnil : inside .nil = []) {path : List Nat}
    {ps : List (Process Name)} {r : Redex Name} (hr : s.redex? p = some (path, ps, r)) :
    ∃ other, ps[r.receiver]? = some (.receive other r.vars r.body) ∧
      (inside p).Perm (inside (.send r.chan r.values) ++ (atRoot (.receive other r.vars r.body) ++
        inside (p.replaceAt path (.par (r.contract ps))))) := by
  obtain ⟨hleads, hsend, other, hreceive, -⟩ := of_redex? hr
  refine ⟨other, hreceive, ?_⟩
  obtain ⟨outside, hself, hperm⟩ := h.replaceAt_perm hleads.at?_eq
  have hsent : inside (.par ps) ~
      inside (.send r.chan r.values) ++ inside (.par (ps.set r.sender .nil)) := by
    obtain ⟨others, hwith, hset⟩ := h.set_perm hsend
    have hwithout := hset .nil
    rw [hnil, List.append_nil] at hwithout
    exact hwith.trans ((hwithout.symm.append_right _).trans List.perm_append_comm)
  -- The send is replaced first, which leaves the receive where it was.
  have hother : r.sender ≠ r.receiver := by
    rintro heq
    rw [heq, hreceive] at hsend
    cases hsend
  have hreceive' : (ps.set r.sender .nil)[r.receiver]? = some (.receive other r.vars r.body) := by
    rwa [List.getElem?_set_ne hother]
  have hreceived : inside (.par (ps.set r.sender .nil)) ~
      atRoot (.receive other r.vars r.body) ++ inside (.par (r.contract ps)) := by
    obtain ⟨others, hwith, hset⟩ := h.set_perm hreceive'
    have hbody := h.perm (.receive other r.vars r.body)
    rw [children, List.flatMap_singleton] at hbody
    calc inside (.par (ps.set r.sender .nil))
      _ ~ others ++ (atRoot (.receive other r.vars r.body) ++ inside r.body) :=
        hwith.trans (hbody.append_left _)
      _ ~ atRoot (.receive other r.vars r.body) ++ (others ++ inside r.body) :=
        List.perm_append_comm_assoc ..
      _ ~ atRoot (.receive other r.vars r.body) ++ inside (.par (r.contract ps)) :=
        (hset r.body).symm.append_left _
  calc inside p
    _ ~ outside ++ (inside (.send r.chan r.values) ++
          (atRoot (.receive other r.vars r.body) ++ inside (.par (r.contract ps)))) :=
      hself.trans ((hsent.trans (hreceived.append_left _)).append_left _)
    _ ~ inside (.send r.chan r.values) ++
          (atRoot (.receive other r.vars r.body) ++ (outside ++ inside (.par (r.contract ps)))) :=
      (List.perm_append_comm_assoc ..).trans ((List.perm_append_comm_assoc ..).append_left _)
    _ ~ _ := (((hperm _).symm).append_left _).append_left _

end Store
end PiCalculus
