import Mathlib
import PiCalculus.Proofs.Store.Sorting
import PiCalculus.Proofs.Typing.Checking
import PiCalculus.Proofs.Typing.Rechecking

/-! The types that inference finds, by the uses of the names in the order in which they are visited. A
send has the last word on a channel. A receive only has a say where nothing is known of the channel,
neither by a hint nor by a use before it. -/

namespace PiCalculus

namespace Use

section lists

variable {ν : Type} [DecidableEq ν]

def received? (n : ν) : Use ν → Option (List ν)
  | .sent .. => none
  | .received chan vars => if chan = n then some vars else none

def sends (n : ν) (uses : List (Use ν)) : List (List ν) := uses.filterMap (sent? n)

def bindings (n : ν) (uses : List (Use ν)) : List (List ν) := uses.filterMap (received? n)

variable {n : ν} {use : Use ν} {uses : List (Use ν)}

theorem sends_cons_sent {values : List ν} :
    sends n (.sent n values :: uses) = values :: sends n uses := by simp [sends, sent?]

theorem sends_cons_received {chan : ν} {vars : List ν} :
    sends n (.received chan vars :: uses) = sends n uses := List.filterMap_cons_none rfl

theorem bindings_cons_received {vars : List ν} :
    bindings n (.received n vars :: uses) = vars :: bindings n uses := by simp [bindings, received?]

theorem lists_cons_of_ne (uses : List (Use ν)) (h : use.chan ≠ n) :
    sends n (use :: uses) = sends n uses ∧ bindings n (use :: uses) = bindings n uses := by
  cases use with
  | sent chan values => exact ⟨List.filterMap_cons_none (if_neg h), List.filterMap_cons_none rfl⟩
  | received chan vars => exact ⟨List.filterMap_cons_none rfl, List.filterMap_cons_none (if_neg h)⟩

end lists

variable {n : Name} {x : Ty Name} {use : Use Name}

def retype (n : Name) (x : Ty Name) : Use Name → Ty Name
  | .sent chan values => if chan = n then .chan (.carrying values) else x
  | .received chan vars => if chan = n ∧ x.isUntyped then .chan (.carrying vars) else x

theorem retype_of_ne (h : use.chan ≠ n) : use.retype n x = x := by
  cases use with
  | sent chan values => exact if_neg h
  | received chan vars => exact if_neg fun hchan => h hchan.1

/-- What the type of a name is in the end: what the last send on it says, or else what was known of it
at first, or else what the first receive on it says. -/
def typeAfter (n : Name) (x : Ty Name) (uses : List (Use Name)) : Ty Name :=
  match (sends n uses).getLast?, x.isUntyped, (bindings n uses).head? with
  | some values, _, _ => .chan (.carrying values)
  | none, true, some vars => .chan (.carrying vars)
  | none, _, _ => x

theorem typeAfter_cons (use : Use Name) (uses : List (Use Name)) (x : Ty Name) :
    typeAfter n x (use :: uses) = typeAfter n (use.retype n x) uses := by
  by_cases hchan : use.chan = n
  · cases use with
    | sent chan values =>
      -- What is known of the channel now is kept, unless a later send says something else.
      obtain rfl : chan = n := hchan
      rw [typeAfter, typeAfter, retype, if_pos rfl, sends_cons_sent, List.getLast?_cons]
      cases (sends chan uses).getLast? <;> rfl
    | received chan vars =>
      obtain rfl : chan = n := hchan
      rw [typeAfter, typeAfter, sends_cons_received, bindings_cons_received, retype]
      cases (sends chan uses).getLast? with
      | some values => rfl
      | none =>
        -- From here on the channel is known, so that receives which come later have no say.
        cases hx : x.isUntyped with
        | true => simp [Ty.isUntyped]
        | false => simp [hx]
  · obtain ⟨hsends, hbindings⟩ := lists_cons_of_ne uses hchan
    rw [typeAfter, typeAfter, hsends, hbindings, retype_of_ne hchan]

theorem foldl_retype (uses : List (Use Name)) (x : Ty Name) :
    uses.foldl (retype n) x = typeAfter n x uses := by
  induction uses generalizing x with
  | nil =>
    rw [List.foldl_nil, typeAfter]
    cases x.isUntyped <;> rfl
  | cons use uses ih => rw [List.foldl_cons, ih, typeAfter_cons]

theorem typeAfter_hint (n : Name) (hint : Option String) (uses : List (Use Name)) :
    typeAfter n ((hint.map Ty.base).getD .untyped) uses =
      match (sends n uses).getLast?, hint, (bindings n uses).head? with
      | some values, _, _ => .chan (.carrying values)
      | none, some hint, _ => .base hint
      | none, none, some vars => .chan (.carrying vars)
      | none, none, none => .untyped := by
  rw [typeAfter]
  cases (sends n uses).getLast? with
  | some values => rfl
  | none =>
    cases hint with
    | some hint => rfl
    | none => cases (bindings n uses).head? <;> rfl

end Use

namespace Store

variable {s : Store} {p : Process Name} {use : Use Name} {uses : List (Use Name)}

theorem Inferring.type_inferUse (h : s.Inferring) (hs : s.Inferrable p) (huse : use ∈ p.uses) :
    ∃ t, s.inferUse use = ⟨t, none⟩ ∧ t.Inferring ∧ t.Inferrable p ∧
      ∀ n, t.type n = use.retype n (s.type n) := by
  obtain ⟨t, ht, -, hinferrable, htype⟩ := hs.inferUse huse
  obtain ⟨hinferring, -⟩ := h.inferUse ht fun n hn =>
    hs.isLive n (Process.names_subset_occurrences huse hn)
  refine ⟨t, ht, hinferring, hinferrable, fun n => ?_⟩
  rw [htype]
  split
  · next hn =>
    subst hn
    cases use with
    | sent chan values => rw [inferred, Use.retype, Use.chan, if_pos rfl, h.element_eq]
    | received chan vars => simp [inferred, Use.retype, Use.chan, h.element_eq]
  · next hn => rw [Use.retype_of_ne (Ne.symm hn)]

theorem Inferring.type_writeEach (h : s.Inferring) (hs : s.Inferrable p)
    (hsub : ∀ use ∈ uses, use ∈ p.uses) :
    ∃ t, s.writeEach Store.inferUse uses = ⟨t, none⟩ ∧
      ∀ n, t.type n = uses.foldl (Use.retype n) (s.type n) := by
  induction uses generalizing s with
  | nil => exact ⟨s, rfl, fun _ => rfl⟩
  | cons use uses ih =>
    obtain ⟨huse, hsub⟩ := List.forall_mem_cons.mp hsub
    obtain ⟨u, hfirst, hu, hinferrable, htype⟩ := h.type_inferUse hs huse
    obtain ⟨t, hrest, ht⟩ := ih hu hinferrable hsub
    refine ⟨t, ?_, fun n => ?_⟩
    · rw [Store.writeEach, hfirst]
      exact hrest
    · rw [ht, htype, List.foldl_cons]

/-- What is known of the type of a name at first is its hint. -/
theorem type_eq_hint_of_load {written : Process Occurrence} {n : Name}
    (h : n ∈ (Store.empty.load written).1.occurrences) :
    (Store.empty.load written).2.type n =
      (((Store.empty.load written).2.hint n).map Ty.base).getD .untyped := by
  obtain ⟨⟨label, hint, span⟩, -, he⟩ := Store.empty.get?_load written h
  rw [type_of_get? he, Store.hint, he]
  cases hint <;> rfl

end Store

namespace Program

variable {source : String} {p : Program}

theorem type_held_eq_hint (parsed : Program.parse source = .ok p) {n : Name}
    (hn : n ∈ p.bound.occurrences) :
    p.held.type n = ((p.held.hint n).map Ty.base).getD .untyped := by
  rw [Store.type, Store.hint, held_get? hn]
  have hocc : n ∈ p.process.occurrences :=
    (Process.mem_occurrences_bindIn hn).resolve_left List.not_mem_nil
  obtain ⟨written, -, rfl⟩ := parse_eq_ok_iff_all.mp parsed
  exact Store.type_eq_hint_of_load hocc

/-- Inference succeeds on what is read and bound, and the type of every name is that of its uses and
its hint. -/
theorem infer_types (parsed : Program.parse source = .ok p) :
    let bound := (p.run .bind).1
    let uses := bound.process.uses
    let typed := bound.run .infer
    typed.2.result = .ok .none ∧ typed.1.process = bound.process ∧
      ∀ n ∈ bound.process.occurrences, typed.1.store.type n =
        match (Use.sends n uses).getLast?, bound.store.hint n, (Use.bindings n uses).head? with
        | some values, _, _ => .chan (.carrying values)
        | none, some hint, _ => .base hint
        | none, none, some vars => .chan (.carrying vars)
        | none, none, none => .untyped := by
  intro bound uses typed
  have hinferring : p.held.Inferring := inferring_held parsed
  have hinferrable : p.held.Inferrable p.bound :=
    ⟨((plain_of_parse parsed).retain _).writable, isLive_held parsed,
      fun use _ => hinferring.direct use.chan⟩
  obtain ⟨t, ht, htype⟩ := hinferring.type_writeEach hinferrable fun use huse => huse
  have houtcome : typed.2 = Operation.ofWritten p.bound ⟨t, none⟩ :=
    congrArg (Operation.ofWritten p.bound) ht
  have hstore : typed.1.store = t.retain bound.process.occurrences :=
    congrArg (fun o : Operation.Outcome => o.store.retain o.process.occurrences) houtcome
  refine ⟨by rw [houtcome]; rfl, rfl, fun n hn => ?_⟩
  rw [← Use.typeAfter_hint, ← Use.foldl_retype]
  calc typed.1.store.type n = t.type n := by rw [hstore, t.type_retain hn]
    _ = p.bound.uses.foldl (Use.retype n) (p.held.type n) := htype n
    _ = p.bound.uses.foldl (Use.retype n) (((p.held.hint n).map Ty.base).getD .untyped) := by
      rw [type_held_eq_hint parsed hn]

/-- The name `0` has a hint and is sent on twice, `4` is sent on below the place where it is bound, `11`
is received on at two depths, `16` has a hint and is received on, and nothing is done with `9`. -/
theorem infer_types_nested :
    ∃ p, Program.parse
        "(new a:T)(a<b> | c(x).(x<a,b> | x(y).a<>) | d(z).d(u,v).0 | (new e:U)e(w).0)" = .ok p ∧
      let typed := (p.run .bind).1.run .infer
      typed.2.result = .ok .none ∧ typed.1.store.type ⟨0⟩ = .chan (.composite []) ∧
        typed.1.store.type ⟨4⟩ = .chan (.composite [.reference ⟨0⟩, .reference ⟨7⟩]) ∧
        typed.1.store.type ⟨11⟩ = .chan (.composite [.reference ⟨14⟩, .reference ⟨15⟩]) ∧
        typed.1.store.type ⟨16⟩ = .base "U" ∧ typed.1.store.type ⟨9⟩ = .untyped := by
  obtain ⟨p, parsed, hocc, hsent, hsent', hunsent, hhint, hbound⟩ : ∃ p, Program.parse
      "(new a:T)(a<b> | c(x).(x<a,b> | x(y).a<>) | d(z).d(u,v).0 | (new e:U)e(w).0)" = .ok p ∧
      let bound := (p.run .bind).1
      (∀ i ∈ [0, 4, 11, 16, 9], Name.mk i ∈ bound.process.occurrences) ∧
        (Use.sends ⟨0⟩ bound.process.uses).getLast? = some [] ∧
        (Use.sends ⟨4⟩ bound.process.uses).getLast? = some [⟨0⟩, ⟨7⟩] ∧
        (∀ i ∈ [11, 16, 9], (Use.sends ⟨i⟩ bound.process.uses).getLast? = none) ∧
        (bound.store.hint ⟨11⟩ = none ∧ bound.store.hint ⟨16⟩ = some "U" ∧
          bound.store.hint ⟨9⟩ = none) ∧
        (Use.bindings ⟨11⟩ bound.process.uses).head? = some [⟨14⟩, ⟨15⟩] ∧
        (Use.bindings ⟨9⟩ bound.process.uses).head? = none := by
    decide +kernel
  obtain ⟨hresult, -, htype⟩ := infer_types parsed
  refine ⟨p, parsed, hresult, ?_, ?_, ?_, ?_, ?_⟩
  · rw [htype ⟨0⟩ (hocc 0 (by simp)), hsent]
    rfl
  · rw [htype ⟨4⟩ (hocc 4 (by simp)), hsent']
    rfl
  · rw [htype ⟨11⟩ (hocc 11 (by simp)), hunsent 11 (by simp), hhint.1, hbound.1]
    rfl
  · rw [htype ⟨16⟩ (hocc 16 (by simp)), hunsent 16 (by simp), hhint.2.1]
  · rw [htype ⟨9⟩ (hocc 9 (by simp)), hunsent 9 (by simp), hhint.2.2, hbound.2]

end Program

end PiCalculus
