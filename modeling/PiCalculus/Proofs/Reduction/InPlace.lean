import Mathlib
import PiCalculus.Proofs.Labelling.InPlace
import PiCalculus.Proofs.Operation.Runs
import PiCalculus.Proofs.Reduction.Selection

/-! A communication in place. Sends and receives are gathered under the labels of their channels, then
names are written to one by one, then nodes are put. A step that does not succeed has not begun to
write, so that a run which fails leaves the process as its last successful step did. -/

namespace PiCalculus

open Process

/-- Puts a value under a key, unless there is one already. -/
def orInsert {α : Type} (entries : List (String × α)) (entry : String × α) : List (String × α) :=
  if entries.any (·.1 = entry.1) then entries else entries ++ [entry]

/-- A search that looks at keys alone finds among the first entries under each key what it finds among
all entries. -/
theorem findSome?_foldl_orInsert {α β : Type} {f : String × α → Option β}
    (hf : ∀ key a b, f (key, a) = none → f (key, b) = none) (entries later : List (String × α)) :
    (later.foldl orInsert entries).findSome? f = (entries ++ later).findSome? f := by
  induction later generalizing entries with
  | nil => rw [List.foldl_nil, List.append_nil]
  | cons entry later ih =>
    rw [List.foldl_cons, ih]
    unfold orInsert
    split
    · next hany =>
      obtain ⟨⟨key, a⟩, hmem, hkey⟩ := List.any_eq_true.mp hany
      obtain rfl : key = entry.1 := of_decide_eq_true hkey
      rw [List.findSome?_append, List.findSome?_append]
      cases hfound : entries.findSome? f with
      | some b => rfl
      | none =>
        have hnone := hf entry.1 a entry.2 (List.findSome?_eq_none_iff.mp hfound _ hmem)
        rw [Option.none_or, Option.none_or, List.findSome?_cons, hnone]
    · rw [List.append_assoc, List.singleton_append]

namespace Store

/-- The place and the values of the first possible send under each label. -/
def sendsByLabel (s : Store) (ps : List (Process Name)) : List (String × Nat × List Name) :=
  ((s.sendersOf ps).map fun (i, chan, values) => (s.label chan, i, values)).foldl orInsert []

/-- The place of the first possible receive under each label. -/
def receivesByLabel (s : Store) (ps : List (Process Name)) : List (String × Nat) :=
  ((s.receiversOf ps).map fun (j, chan, _) => (s.label chan, j)).foldl orInsert []

/-- What a communication in place leaves of the components and of the names, and whether it was
performed. -/
structure InPlace where
  components : List (Process Name)
  written : Written
  performed : Bool

def InPlace.result (c : InPlace) : Except Error Operation.Value :=
  match c.written.failure with
  | none => .ok (.flag c.performed)
  | some e => .error e

/-- Communicates in place among the components of a composition. -/
def communicateInPlace (s : Store) (ps : List (Process Name)) : InPlace :=
  let pair : Option (Nat × List Name × Nat) := (s.sendsByLabel ps).findSome? fun (l, i, values) =>
    ((s.receivesByLabel ps).lookup l).map fun j => (i, values, j)
  match pair with
  | none => ⟨ps, ⟨s, none⟩, false⟩
  | some (i, values, j) =>
    match ps[j]? with
    | some (.receive _ vars body) =>
      match s.substituteInPlace body vars values with
      | ⟨t, none⟩ => ⟨(ps.set j body).set i .nil, ⟨t, none⟩, true⟩
      | stopped => ⟨ps, stopped, false⟩
    | _ => ⟨(ps.set j .nil).set i .nil, ⟨s, none⟩, true⟩

variable {s : Store} {ps : List (Process Name)}

theorem lookup_receivesByLabel (l : String) : (s.receivesByLabel ps).lookup l =
    ((s.receiversOf ps).find? fun (_, other, _) => s.label other = l).map (·.1) := by
  have hkeys : ∀ key (a b : Nat), (if (l == key) = true then some a else none) = none →
      (if (l == key) = true then some b else none) = none := by
    intro key a b h
    split at h
    · cases h
    · next hne => rw [if_neg hne]
  rw [receivesByLabel, List.lookup_eq_findSome?, findSome?_foldl_orInsert hkeys, List.nil_append,
    List.findSome?_map, List.find?_eq_findSome?_guard, List.map_findSome?]
  congr 1
  funext ⟨j, other, vars, body⟩
  by_cases hl : s.label other = l
  · simp [hl]
  · simp [hl, Ne.symm hl]

/-- The pair that is found through the labels is the one that is found through the places. -/
theorem pair_eq (s : Store) (ps : List (Process Name)) :
    (s.sendsByLabel ps).findSome? (fun (l, i, values) =>
      ((s.receivesByLabel ps).lookup l).map fun j => (i, values, j)) =
    (Redex.find? s.label s.isFreeName ps).map fun r => (r.sender, r.values, r.receiver) := by
  have hkeys : ∀ key (a b : Nat × List Name),
      ((s.receivesByLabel ps).lookup key).map (fun j => (a.1, a.2, j)) = none →
      ((s.receivesByLabel ps).lookup key).map (fun j => (b.1, b.2, j)) = none := by
    intro key a b h
    rw [Option.map_eq_none_iff] at h ⊢
    exact h
  rw [sendsByLabel, findSome?_foldl_orInsert hkeys, List.nil_append, List.findSome?_map]
  unfold Redex.find?
  rw [List.map_findSome?]
  congr 1
  funext ⟨i, chan, values⟩
  simp only [Function.comp_apply, lookup_receivesByLabel, Option.map_map]
  rfl

/-- What is done in place, after the pair has been found. -/
theorem communicateInPlace_of_find? {r : Redex Name}
    (h : Redex.find? s.label s.isFreeName ps = some r) :
    s.communicateInPlace ps =
      if r.values.length = r.vars.length then
        ⟨r.contract ps, ⟨s.relabel r.body.prefixNames
          (substitution (r.vars.map s.label) (r.values.map s.label)), none⟩, true⟩
      else ⟨ps, ⟨s, some (.unevenSubstitution r.values.length r.vars.length)⟩, false⟩ := by
  obtain ⟨hsend, other, hreceive, -⟩ := Redex.of_find? h
  have hne : r.receiver ≠ r.sender := by
    intro heq
    rw [← heq, hreceive] at hsend
    cases hsend
  unfold communicateInPlace
  rw [pair_eq, h]
  dsimp only [Option.map_some]
  rw [hreceive]
  dsimp only
  rw [substituteInPlace_eq, substitute, List.length_map, List.length_map]
  split
  · next t hdone =>
    split at hdone
    · next even =>
      cases hdone
      rw [if_pos even, Redex.contract, List.set_comm _ _ hne]
    · cases hdone
  · next hstopped =>
    split at hstopped
    · exact (hstopped _ rfl).elim
    · next uneven => rw [if_neg uneven, if_neg uneven]

theorem communicateInPlace_of_none (h : Redex.find? s.label s.isFreeName ps = none) :
    s.communicateInPlace ps = ⟨ps, ⟨s, none⟩, false⟩ := by
  unfold communicateInPlace
  rw [pair_eq, h]
  rfl

end Store

namespace Operation

variable {s t : Store} {p q : Process Name}

/-- A single step leaves behind and answers what the communication in place does. -/
theorem run_reduceOnce_eq_inPlace (held : List Name) {way : List Nat} {ps : List (Process Name)}
    (d : p.Descends way (.par ps)) :
    let o := reduceOnce.run held s p
    let c := s.communicateInPlace ps
    o.process = p.replaceAt way (.par c.components) ∧ o.store = c.written.store ∧
      o.result = c.result := by
  cases hfind : Redex.find? s.label s.isFreeName ps with
  | none =>
    have hredex : s.redex? p = none := by
      rw [Store.redex?_of_descends d, hfind]
      rfl
    rw [run_reduceOnce_of_none held hredex, Store.communicateInPlace_of_none hfind]
    exact ⟨d.leads.replaceAt_self.symm, rfl, rfl⟩
  | some r =>
    have hredex : s.redex? p = some (way, ps, r) := by
      rw [Store.redex?_of_descends d, hfind]
      rfl
    rw [run_reduceOnce_of_some held hredex, Store.communicateInPlace_of_find? hfind]
    split
    · exact ⟨rfl, rfl, rfl⟩
    · exact ⟨d.leads.replaceAt_self.symm, rfl, rfl⟩

theorem run_reduceOnce_unchanged (held : List Name)
    (h : (reduceOnce.run held s p).result ≠ .ok (.flag true)) :
    (reduceOnce.run held s p).process = p ∧ (reduceOnce.run held s p).store = s := by
  cases hredex : s.redex? p with
  | none =>
    rw [run_reduceOnce_of_none held hredex]
    exact ⟨rfl, rfl⟩
  | some found =>
    obtain ⟨way, ps, r⟩ := found
    rw [run_reduceOnce_of_some held hredex] at h ⊢
    split at h
    · exact (h rfl).elim
    · next uneven =>
      rw [if_neg uneven]
      exact ⟨rfl, rfl⟩

/-- The selected pair sends and receives different numbers of names. -/
inductive SelectsUneven (s : Store) (p : Process Name) : Nat → Nat → Prop
  | intro {way : List Nat} {ps : List (Process Name)} {i j : Nat} {chan other : Name}
      {values vars : List Name} {body : Process Name} (d : p.Descends way (.par ps))
      (pair : s.Selects ps i j) (send : ps[i]? = some (.send chan values))
      (receive : ps[j]? = some (.receive other vars body)) (uneven : values.length ≠ vars.length) :
      SelectsUneven s p values.length vars.length

theorem SelectsUneven.exists_descends {values vars : Nat} (h : SelectsUneven s p values vars) :
    ∃ way ps, p.Descends way (.par ps) := by
  obtain ⟨d, -⟩ := h
  exact ⟨_, _, d⟩

theorem run_reduceOnce_error_iff (held : List Name) (e : Error) :
    (reduceOnce.run held s p).result = .error e ↔
      ∃ values vars, SelectsUneven s p values vars ∧ e = .unevenSubstitution values vars := by
  constructor
  · intro h
    have hattempts := (attempts_iff held _ _ _).mpr ⟨rfl, rfl, h.symm⟩
    generalize (reduceOnce.run held s p).process = after at hattempts
    generalize (reduceOnce.run held s p).store = t at hattempts
    cases hattempts with
    | uneven d pair send receive uneven => exact ⟨_, _, .intro d pair send receive uneven, rfl⟩
  · rintro ⟨values, vars, ⟨d, pair, send, receive, uneven⟩, rfl⟩
    exact ((attempts_iff held _ _ _).mp (.uneven d pair send receive uneven)).2.2.symm

/-- So many steps that succeed, each a communication with the tidying after it. -/
inductive Steps (held : List Name) : Nat → Store → Process Name → Store → Process Name → Prop
  | none (s : Store) (p : Process Name) : Steps held 0 s p s p
  | step {k : Nat} {s t : Store} {p q : Process Name}
      (performed : (reduceOnce.run held s p).result = .ok (.flag true))
      (rest : Steps held k (reduceOnce.run held s p).store
        (simplify.run held (reduceOnce.run held s p).store (reduceOnce.run held s p).process).process
        t q) :
      Steps held (k + 1) s p t q

theorem run_reduceOnce_of_ok (held : List Name) {r : Reduct} (h : s.reduceOnce p = .ok (some r)) :
    reduceOnce.run held s p =
      ⟨r.process, r.store, .ok (.flag true), [.communication r.chan]⟩ := by
  rw [run, h]

/-- A run takes steps until one does not succeed, and fails exactly as that one does. -/
theorem reduceFrom_steps (held : List Name) (taken n : Nat) (s : Store) (p : Process Name) :
    ∃ k ≤ n, Steps held k s p (s.reduceFrom taken n p).store (s.reduceFrom taken n p).process ∧
      ∀ e, (s.reduceFrom taken n p).failure = some e → k < n ∧
        (s.reduceFrom taken n p).store.reduceOnce (s.reduceFrom taken n p).process = .error e := by
  induction n generalizing taken s p with
  | zero => exact ⟨0, Nat.le_refl 0, .none s p, fun e he => by cases he⟩
  | succ n ih =>
    rw [Store.reduceFrom]
    -- A step that does not succeed ends the run with the names and the process as they are.
    cases honce : s.reduceOnce p with
    | error e =>
      refine ⟨0, Nat.zero_le _, .none s p, fun e' he => ⟨Nat.succ_pos n, ?_⟩⟩
      obtain rfl : e = e' := Option.some.inj he
      exact honce
    | ok answer =>
      cases answer with
      | none => exact ⟨0, Nat.zero_le _, .none s p, fun e he => by cases he⟩
      | some r =>
        obtain ⟨k, hk, hsteps, hfailure⟩ := ih (taken + 1) r.store (r.process.simplify r.store.label)
        have hrun := run_reduceOnce_of_ok held honce
        refine ⟨k + 1, Nat.succ_le_succ hk, .step (by rw [hrun]) ?_, fun e he => ?_⟩
        · rw [hrun]
          exact hsteps
        · obtain ⟨hlt, herror⟩ := hfailure e he
          exact ⟨Nat.succ_lt_succ hlt, herror⟩

/-- A step is done to its end or not at all. It leaves everything as it is unless it succeeds, it fails
only where the selected pair sends and receives different numbers of names, and what is written in
place name by name and node by node comes to the same. A run that fails leaves what its last
successful step has left. -/
theorem reduceOnce_allOrNothing :
    (∀ held s p, let o := reduceOnce.run held s p
      (o.result ≠ .ok (.flag true) → o.process = p ∧ o.store = s) ∧
      (∀ e, o.result = .error e ↔
        ∃ values vars, SelectsUneven s p values vars ∧ e = .unevenSubstitution values vars) ∧
      ∀ way ps, p.Descends way (.par ps) → let c := s.communicateInPlace ps
        o.process = p.replaceAt way (.par c.components) ∧ o.store = c.written.store ∧
          o.result = c.result) ∧
    ∀ held n s p e, let o := (reduce n).run held s p
      o.result = .error e → (reduceOnce.run held o.store o.process).result = .error e ∧
        ∃ k < n, Steps held k s p o.store o.process := by
  refine ⟨fun held s p => ⟨run_reduceOnce_unchanged held, run_reduceOnce_error_iff held,
    fun way ps d => run_reduceOnce_eq_inPlace held d⟩, ?_⟩
  intro held n s p e o ho
  obtain ⟨k, -, hsteps, hfailure⟩ := reduceFrom_steps held 0 n s p
  have hfailed : (s.reduceFrom 0 n p).failure = some e := by
    change (match (s.reduceFrom 0 n p).failure with
      | none => Except.ok (Value.count (s.reduceFrom 0 n p).steps)
      | some e => .error e) = .error e at ho
    cases hf : (s.reduceFrom 0 n p).failure with
    | none =>
      rw [hf] at ho
      cases ho
    | some e' =>
      rw [hf] at ho
      cases ho
      rfl
  obtain ⟨hlt, herror⟩ := hfailure e hfailed
  refine ⟨?_, k, hlt, hsteps⟩
  have hlast : o.store.reduceOnce o.process = .error e := herror
  rw [run, hlast]

/-- The second step of this run fails, and it leaves what the first one has left. -/
theorem reduceOnce_allOrNothing_second_step :
    ∃ p, Program.parse "(new c)(c<d> | c(x).(c<x,x> | c(y).y<y>))" = .ok p ∧
      let o := (reduce 5).run [] p.store (p.process.bind p.store.label)
      let again := reduceOnce.run [] o.store o.process
      o.result = .error (.unevenSubstitution 2 1) ∧
        (again.result = .error (.unevenSubstitution 2 1) ∧
          ∃ k < 5, Steps [] k p.store (p.process.bind p.store.label) o.store o.process) ∧
        (again.process = o.process ∧ again.store = o.store) ∧ SelectsUneven o.store o.process 2 1 ∧
        ∃ way ps, o.process.Descends way (.par ps) ∧
          (o.store.communicateInPlace ps).result = .error (.unevenSubstitution 2 1) := by
  have hfails : (match Program.parse "(new c)(c<d> | c(x).(c<x,x> | c(y).y<y>))" with
      | .ok p =>
        match ((reduce 5).run [] p.store (p.process.bind p.store.label)).result with
        | .error (.unevenSubstitution 2 1) => true
        | _ => false
      | .error _ => false) = true := by decide +kernel
  split at hfails
  · next p parsed =>
    split at hfails
    · next hresult =>
      obtain ⟨hagain, hsteps⟩ := reduceOnce_allOrNothing.2 [] 5 p.store _ _ hresult
      obtain ⟨hunchanged, herror, hinPlace⟩ := reduceOnce_allOrNothing.1 []
        ((reduce 5).run [] p.store (p.process.bind p.store.label)).store
        ((reduce 5).run [] p.store (p.process.bind p.store.label)).process
      obtain ⟨values, vars, huneven, heq⟩ := (herror _).mp hagain
      cases heq
      have hsame := hunchanged (by rw [hagain]; exact nofun)
      obtain ⟨way, ps, d⟩ := huneven.exists_descends
      have hresult' := (hinPlace way ps d).2.2
      rw [hagain] at hresult'
      exact ⟨p, parsed, hresult, ⟨hagain, hsteps⟩, hsame, huneven, way, ps, d, hresult'.symm⟩
    · cases hfails
  · cases hfails

end Operation

end PiCalculus
