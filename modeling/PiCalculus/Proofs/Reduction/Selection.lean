import Mathlib
import PiCalculus.Operation
import PiCalculus.Proofs.Process.Descent
import PiCalculus.Proofs.Reduction.Step

/-! Which communication is performed and what it leaves behind, told by places. The two that take part
are the leftmost possible ones directly inside the composition to which the descent leads. Two nodes
change, and everything else stays where it is. -/

namespace PiCalculus

open Process

/-- A search through a list that is sorted by places ends at the least place where it can. -/
theorem isLeast_of_find? {β : Type} {l : List (Nat × β)} (sorted : l.Pairwise fun a b => a.1 < b.1)
    {found : Nat × β → Bool} {a : Nat × β} (h : l.find? found = some a) :
    IsLeast {i | ∃ b, (i, b) ∈ l ∧ found (i, b)} a.1 := by
  obtain ⟨ha, before, after, rfl, hbefore⟩ := List.find?_eq_some_iff_append.mp h
  refine ⟨⟨a.2, List.mem_append_right _ List.mem_cons_self, ha⟩, ?_⟩
  rintro i ⟨b, hb, hfound⟩
  rcases List.mem_append.mp hb with hb | hb
  · have hmissed := hbefore _ hb
    rw [hfound] at hmissed
    cases hmissed
  · rcases List.mem_cons.mp hb with rfl | hb
    · exact Nat.le_refl _
    · have hafter := (List.pairwise_append.mp sorted).2.1
      exact Nat.le_of_lt (List.rel_of_pairwise_cons hafter hb)

theorem exists_find?_of_findSome? {α β : Type} {f : α → Option β} {l : List α} {b : β}
    (h : l.findSome? f = some b) : ∃ a, l.find? (fun a => (f a).isSome) = some a ∧ f a = some b := by
  obtain ⟨before, a, after, rfl, ha, hbefore⟩ := List.findSome?_eq_some_iff.mp h
  refine ⟨a, List.find?_eq_some_iff_append.mpr ⟨by rw [ha]; rfl, before, after, rfl, ?_⟩, ha⟩
  intro c hc
  rw [hbefore c hc]
  rfl

namespace Redex

variable {ν : Type}

theorem pairwise_filterMap_zipIdx {β : Type} {f : Process ν × Nat → Option (Nat × β)}
    (hf : ∀ p i b, f (p, i) = some b → b.1 = i) (ps : List (Process ν)) :
    (ps.zipIdx.filterMap f).Pairwise fun a b => a.1 < b.1 := by
  have hplaces : ps.zipIdx.Pairwise fun a b => a.2 < b.2 := by
    rw [← List.pairwise_map, List.zipIdx_map_snd]
    exact List.pairwise_lt_range'
  refine hplaces.filterMap f ?_
  rintro ⟨p, i⟩ ⟨q, k⟩ hik a ha b hb
  rw [hf p i a ha, hf q k b hb]
  exact hik

theorem senders_sorted (ps : List (Process ν)) : (senders ps).Pairwise fun a b => a.1 < b.1 := by
  refine pairwise_filterMap_zipIdx (fun p i b hb => ?_) ps
  split at hb
  · next heq =>
    cases heq
    cases hb
    rfl
  · cases hb

theorem receivers_sorted (ps : List (Process ν)) :
    (receivers ps).Pairwise fun a b => a.1 < b.1 := by
  refine pairwise_filterMap_zipIdx (fun p i b hb => ?_) ps
  split at hb
  · next heq =>
    cases heq
    cases hb
    rfl
  · cases hb

end Redex

namespace Store

variable (s : Store) (ps : List (Process Name))

/-- A send at this place can communicate on channels of this label. -/
def SendsOn (i : Nat) (l : String) : Prop :=
  ∃ chan values, ps[i]? = some (.send chan values) ∧ s.sort chan = .name ∧ s.label chan = l

/-- A receive at this place can communicate on channels of this label. -/
def ReceivesOn (j : Nat) (l : String) : Prop :=
  ∃ chan vars body, ps[j]? = some (.receive chan vars body) ∧ s.sort chan = .name ∧ s.label chan = l

/-- The leftmost send that some receive answers, with the leftmost such receive. -/
structure Selects (i j : Nat) : Prop where
  sender : IsLeast {i | ∃ l, s.SendsOn ps i l ∧ ∃ j, s.ReceivesOn ps j l} i
  receiver : IsLeast {j | ∃ l, s.SendsOn ps i l ∧ s.ReceivesOn ps j l} j

variable {s ps}

theorem Selects.unique {i j i' j' : Nat} (h : s.Selects ps i j) (h' : s.Selects ps i' j') :
    i = i' ∧ j = j' := by
  obtain rfl := h.sender.unique h'.sender
  exact ⟨rfl, h.receiver.unique h'.receiver⟩

def sendersOf (s : Store) (ps : List (Process Name)) : List (Nat × Name × List Name) :=
  (Redex.senders ps).filter fun (_, chan, _) => s.isFreeName chan

def receiversOf (s : Store) (ps : List (Process Name)) :
    List (Nat × Name × List Name × Process Name) :=
  (Redex.receivers ps).filter fun (_, chan, _) => s.isFreeName chan

theorem sendsOn_iff {i : Nat} {l : String} : s.SendsOn ps i l ↔
    ∃ chan values, (i, chan, values) ∈ s.sendersOf ps ∧ s.label chan = l := by
  simp [SendsOn, sendersOf, Redex.mem_senders, isFreeName, and_assoc]

theorem receivesOn_iff {j : Nat} {l : String} : s.ReceivesOn ps j l ↔
    ∃ chan vars body, (j, chan, vars, body) ∈ s.receiversOf ps ∧ s.label chan = l := by
  simp [ReceivesOn, receiversOf, Redex.mem_receivers, isFreeName, and_assoc]

theorem SendsOn.label_eq {i : Nat} {l l' : String} (h : s.SendsOn ps i l) (h' : s.SendsOn ps i l') :
    l = l' := by
  obtain ⟨chan, values, hi, -, rfl⟩ := h
  obtain ⟨chan', values', hi', -, rfl⟩ := h'
  rw [hi, Option.some.injEq] at hi'
  cases hi'
  rfl

/-- The first receive on a label that is found is the leftmost one. -/
theorem isLeast_receiver {l : String} {a : Nat × Name × List Name × Process Name}
    (h : (s.receiversOf ps).find? (fun (_, other, _) => s.label other = l) = some a) :
    IsLeast {j | s.ReceivesOn ps j l} a.1 := by
  have hleast := isLeast_of_find? ((Redex.receivers_sorted ps).filter _) h
  have hchan := List.find?_some h
  refine ⟨receivesOn_iff.mpr ⟨_, _, _, List.mem_of_find?_eq_some h, by simpa using hchan⟩, ?_⟩
  intro j hj
  obtain ⟨other, vars, body, hmem, hl⟩ := receivesOn_iff.mp hj
  exact hleast.2 ⟨(other, vars, body), hmem, by simpa using hl⟩

theorem find?_receiversOf_isSome {l : String} :
    ((s.receiversOf ps).find? fun (_, other, _) => s.label other = l).isSome ↔
      ∃ j, s.ReceivesOn ps j l := by
  simp [List.find?_isSome, receivesOn_iff]

theorem selects_of_find? {r : Redex Name} (h : Redex.find? s.label s.isFreeName ps = some r) :
    s.Selects ps r.sender r.receiver := by
  obtain ⟨⟨i, chan, values⟩, hfound, hmap⟩ := exists_find?_of_findSome? h
  obtain ⟨⟨j, other, vars, body⟩, hreceiver, rfl⟩ := Option.map_eq_some_iff.mp hmap
  have hsender := isLeast_of_find? ((Redex.senders_sorted ps).filter _) hfound
  have hleast := isLeast_receiver hreceiver
  have hsend : s.SendsOn ps i (s.label chan) :=
    sendsOn_iff.mpr ⟨chan, values, List.mem_of_find?_eq_some hfound, rfl⟩
  constructor
  · refine ⟨⟨s.label chan, hsend, j, hleast.1⟩, ?_⟩
    rintro k ⟨l, hk, hanswered⟩
    obtain ⟨chan', values', hmem, rfl⟩ := sendsOn_iff.mp hk
    have hsome := find?_receiversOf_isSome.mpr hanswered
    exact hsender.2 ⟨(chan', values'), hmem, by rwa [Option.isSome_map]⟩
  · refine ⟨⟨s.label chan, hsend, hleast.1⟩, ?_⟩
    rintro k ⟨l, hl, hk⟩
    exact hleast.2 (hl.label_eq hsend ▸ hk)

theorem not_selects_of_find? (h : Redex.find? s.label s.isFreeName ps = none) (i j : Nat) :
    ¬ s.Selects ps i j := by
  intro hselects
  obtain ⟨l, hsend, hanswered⟩ := hselects.sender.1
  obtain ⟨chan, values, hmem, rfl⟩ := sendsOn_iff.mp hsend
  have hnone := List.findSome?_eq_none_iff.mp h _ hmem
  rw [Option.map_eq_none_iff] at hnone
  have hsome := find?_receiversOf_isSome.mpr hanswered
  rw [receiversOf, hnone] at hsome
  cases hsome

variable {p q : Process Name} {way : List Nat}

theorem redex?_of_not_isPar (d : p.Descends way q) (h : q.isPar = false) : s.redex? p = none := by
  unfold redex?
  rw [d.focus?_eq, h]
  rfl

theorem redex?_of_descends (d : p.Descends way (.par ps)) :
    s.redex? p = (Redex.find? s.label s.isFreeName ps).map fun r => (way, ps, r) := by
  have hfocus : p.focus? = some way := d.focus?_eq
  unfold redex?
  rw [hfocus]
  dsimp only [Option.bind_eq_bind, Option.bind_some]
  rw [d.leads.at?_eq, Option.bind_some]
  dsimp only
  cases Redex.find? s.label s.isFreeName ps <;> rfl

theorem redex?_of_selects {i j : Nat} {chan other : Name} {values vars : List Name}
    {body : Process Name} (d : p.Descends way (.par ps)) (h : s.Selects ps i j)
    (hsend : ps[i]? = some (.send chan values)) (hreceive : ps[j]? = some (.receive other vars body)) :
    s.redex? p = some (way, ps, ⟨i, chan, values, j, vars, body⟩) := by
  rw [redex?_of_descends d]
  cases hfind : Redex.find? s.label s.isFreeName ps with
  | none => exact (not_selects_of_find? hfind i j h).elim
  | some r =>
    obtain ⟨rfl, rfl⟩ := h.unique (selects_of_find? hfind)
    obtain ⟨hsend', other', hreceive', -⟩ := Redex.of_find? hfind
    rw [hsend, Option.some.injEq] at hsend'
    rw [hreceive, Option.some.injEq] at hreceive'
    cases hsend'
    cases hreceive'
    rfl

theorem selects_of_redex? {r : Redex Name} (h : s.redex? p = some (way, ps, r)) :
    p.Descends way (.par ps) ∧ s.Selects ps r.sender r.receiver := by
  obtain ⟨way', q, d⟩ := p.exists_descends
  cases q with
  | par ps' =>
    rw [redex?_of_descends d] at h
    obtain ⟨r', hfind, heq⟩ := Option.map_eq_some_iff.mp h
    cases heq
    exact ⟨d, selects_of_find? hfind⟩
  | _ =>
    rw [redex?_of_not_isPar d rfl] at h
    cases h

theorem at?_receiver {r : Redex Name} (h : s.redex? p = some (way, ps, r)) :
    ∃ other, p.at? (way ++ [r.receiver]) = some (.receive other r.vars r.body) := by
  obtain ⟨hleads, -, other, hreceive, -⟩ := of_redex? h
  refine ⟨other, ?_⟩
  rw [at?_append, hleads.at?_eq, Option.bind_some, at?, children, hreceive]
  rfl

/-- What an attempt to communicate leaves behind, and what it answers. -/
inductive Attempts (s : Store) (p : Process Name) :
    Process Name → Store → Except Error Operation.Value → Prop
  | nowhere {way : List Nat} {q : Process Name} (d : p.Descends way q) (elsewhere : q.isPar = false) :
      s.Attempts p p s (.ok (.flag false))
  | unpaired {way : List Nat} {ps : List (Process Name)} (d : p.Descends way (.par ps))
      (none : ∀ i j, ¬ s.Selects ps i j) : s.Attempts p p s (.ok (.flag false))
  | uneven {way : List Nat} {ps : List (Process Name)} {i j : Nat} {chan other : Name}
      {values vars : List Name} {body : Process Name} (d : p.Descends way (.par ps))
      (pair : s.Selects ps i j) (send : ps[i]? = some (.send chan values))
      (receive : ps[j]? = some (.receive other vars body)) (uneven : values.length ≠ vars.length) :
      s.Attempts p p s (.error (.unevenSubstitution values.length vars.length))
  | done {way : List Nat} {ps : List (Process Name)} {i j : Nat} {chan other : Name}
      {values vars : List Name} {body after : Process Name} {t : Store}
      (d : p.Descends way (.par ps)) (pair : s.Selects ps i j)
      (send : ps[i]? = some (.send chan values)) (receive : ps[j]? = some (.receive other vars body))
      (even : values.length = vars.length) (communicated : Communicated way i j body p after)
      (substituted : s.substitute body (vars.map s.label) (values.map s.label) = ⟨t, none⟩) :
      s.Attempts p after t (.ok (.flag true))

end Store

namespace Operation

variable {s : Store} {p : Process Name}

theorem run_reduceOnce_of_none (held : List Name) (h : s.redex? p = none) :
    reduceOnce.run held s p = ⟨p, s, .ok (.flag false), []⟩ := by
  unfold run Store.reduceOnce
  rw [h]

theorem run_reduceOnce_of_some (held : List Name) {way : List Nat} {ps : List (Process Name)}
    {r : Redex Name} (h : s.redex? p = some (way, ps, r)) :
    reduceOnce.run held s p =
      if r.values.length = r.vars.length then
        ⟨p.replaceAt way (.par (r.contract ps)),
          s.relabel r.body.prefixNames (substitution (r.vars.map s.label) (r.values.map s.label)),
          .ok (.flag true), [.communication (s.label r.chan)]⟩
      else ⟨p, s, .error (.unevenSubstitution r.values.length r.vars.length), []⟩ := by
  unfold run Store.reduceOnce Store.substitute
  rw [h]
  dsimp only
  rw [List.length_map, List.length_map]
  by_cases even : r.values.length = r.vars.length
  · rw [if_pos even, if_pos even]
  · rw [if_neg even, if_neg even]

/-- The two that communicate stand at different places. -/
theorem communicated_of_pair {way : List Nat} {ps : List (Process Name)} {i j : Nat}
    {chan other : Name} {values vars : List Name} {body : Process Name}
    (d : p.Descends way (.par ps)) (send : ps[i]? = some (.send chan values))
    (receive : ps[j]? = some (.receive other vars body)) :
    Communicated way i j body p (p.replaceAt way (.par ((ps.set i .nil).set j body))) := by
  refine d.leads.communicated (List.getElem?_eq_some_iff.mp send).1
    (List.getElem?_eq_some_iff.mp receive).1 ?_ _
  rintro rfl
  rw [send] at receive
  cases receive

theorem eq_run_of_attempts (held : List Name) {after : Process Name} {t : Store}
    {result : Except Error Value} (h : s.Attempts p after t result) :
    after = (reduceOnce.run held s p).process ∧ t = (reduceOnce.run held s p).store ∧
      result = (reduceOnce.run held s p).result := by
  cases h with
  | nowhere d elsewhere =>
    rw [run_reduceOnce_of_none held (Store.redex?_of_not_isPar d elsewhere)]
    exact ⟨rfl, rfl, rfl⟩
  | @unpaired way ps d hnone =>
    have hredex : s.redex? p = none := by
      rw [Store.redex?_of_descends d, Option.map_eq_none_iff]
      by_contra hsome
      obtain ⟨r, hr⟩ := Option.ne_none_iff_exists'.mp hsome
      exact hnone _ _ (Store.selects_of_find? hr)
    rw [run_reduceOnce_of_none held hredex]
    exact ⟨rfl, rfl, rfl⟩
  | uneven d pair send receive uneven =>
    rw [run_reduceOnce_of_some held (Store.redex?_of_selects d pair send receive), if_neg uneven]
    exact ⟨rfl, rfl, rfl⟩
  | done d pair send receive even communicated substituted =>
    rw [Store.substitute, List.length_map, List.length_map, if_pos even] at substituted
    rw [run_reduceOnce_of_some held (Store.redex?_of_selects d pair send receive), if_pos even]
    -- Nothing but what stands at the two places tells what is left of the process.
    exact ⟨communicated.unique (communicated_of_pair d send receive),
      (congrArg Written.store substituted).symm, rfl⟩

theorem attempts_run (held : List Name) :
    s.Attempts p (reduceOnce.run held s p).process (reduceOnce.run held s p).store
      (reduceOnce.run held s p).result := by
  obtain ⟨way, q, d⟩ := p.exists_descends
  cases hpar : q.isPar with
  | false =>
    rw [run_reduceOnce_of_none held (Store.redex?_of_not_isPar d hpar)]
    exact .nowhere d hpar
  | true =>
    obtain ⟨ps, rfl⟩ : ∃ ps, q = .par ps := by
      cases q with
      | par ps => exact ⟨ps, rfl⟩
      | _ => cases hpar
    cases hfind : Redex.find? s.label s.isFreeName ps with
    | none =>
      have hredex : s.redex? p = none := by rw [Store.redex?_of_descends d, hfind]; rfl
      rw [run_reduceOnce_of_none held hredex]
      exact .unpaired d (Store.not_selects_of_find? hfind)
    | some r =>
      have hredex : s.redex? p = some (way, ps, r) := by rw [Store.redex?_of_descends d, hfind]; rfl
      have hpair := Store.selects_of_find? hfind
      obtain ⟨send, other, receive, -⟩ := Redex.of_find? hfind
      rw [run_reduceOnce_of_some held hredex]
      split
      · next even =>
        refine .done d hpair send receive even (communicated_of_pair d send receive) ?_
        rw [Store.substitute, List.length_map, List.length_map, if_pos even]
      · next uneven => exact .uneven d hpair send receive uneven

/-- The attempt to communicate is the one that its places tell. -/
theorem attempts_iff (held : List Name) (after : Process Name) (t : Store)
    (result : Except Error Value) :
    s.Attempts p after t result ↔ after = (reduceOnce.run held s p).process ∧
      t = (reduceOnce.run held s p).store ∧ result = (reduceOnce.run held s p).result := by
  refine ⟨eq_run_of_attempts held, ?_⟩
  rintro ⟨rfl, rfl, rfl⟩
  exact attempts_run held

end Operation

end PiCalculus
