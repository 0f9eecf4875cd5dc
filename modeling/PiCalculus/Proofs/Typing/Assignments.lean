import Mathlib
import PiCalculus.Proofs.Store.Loading
import PiCalculus.Proofs.Typing.Passes
import PiCalculus.Session

/-! What the passes of typing assign. Inference makes no name refer to another one. Unification gives
a type to names of unknown type only, and never one whose chain of references comes back to the name.
So no chain ever loops, and what unification finds known stays, whether the passes succeed or not. -/

namespace PiCalculus

namespace Store

variable {s t u : Store} {n chan var : Name} {elem type : Ty Name}

section loopFree

variable (h : s.LoopFree) (p : Process Name)

include h

theorem LoopFree.infer : (s.infer p).store.LoopFree := by
  apply infer_store_induction h
  intro t ht n names
  apply ht.setType
  intro m hm
  cases hm

theorem LoopFree.unify : (s.unify p).store.LoopFree := by
  apply unify_store_induction h
  intro _ chan _ _ _ elem _ var t ht
  exact (t.unifies_unifyVar chan elem var).loopFree ht

theorem LoopFree.inferAndUnify : (s.inferAndUnify p).store.LoopFree :=
  inferAndUnify_store_induction (h.infer p) fun _ ht => ht.unify p

end loopFree

/-- The stores that a pass comes through, if `through` are those that an item comes through. -/
def stages {α : Type} (write : Store → α → Written) (through : Store → α → List Store) :
    Store → List α → List Store
  | s, [] => [s]
  | s, a :: as =>
    match write s a with
    | ⟨t, none⟩ => through s a ++ stages write through t as
    | _ => through s a

/-- The stores that unification comes through at a receive, one before and one after each variable. -/
def receiveStages (s : Store) (chan : Name) (vars : List Name) : List Store :=
  match s.deref (s.type chan) with
  | .chan elem =>
    if elem.arity = vars.length then
      stages (fun s (elem, var) => s.unifyVar chan elem var)
        (fun s (elem, var) => [s, (s.unifyVar chan elem var).store]) s (elem.elements.zip vars)
    else [s]
  | _ => [s]

/-- The stores that unification comes through, up to the first conflict. -/
def unifyStages (s : Store) (p : Process Name) : List Store :=
  stages (fun s (chan, vars) => s.unifyReceive chan vars)
    (fun s (chan, vars) => s.receiveStages chan vars) s p.receives

/-- One store after the other is filled in, from the first one to the last. -/
structure FillsAlong (s : Store) (stores : List Store) (t : Store) : Prop where
  head : stores.head? = some s
  last : stores.getLast? = some t
  chain : stores.IsChain Fills

theorem fillsAlong_singleton (s : Store) : s.FillsAlong [s] s := ⟨rfl, rfl, .singleton s⟩

theorem FillsAlong.append {l l' : List Store} (h : s.FillsAlong l t) (h' : t.FillsAlong l' u) :
    s.FillsAlong (l ++ l') u := by
  refine ⟨?_, ?_, ?_⟩
  · rw [List.head?_append, h.head, Option.some_or]
  · rw [List.getLast?_append, h'.last, Option.some_or]
  · apply List.isChain_append.mpr
    refine ⟨h.chain, h'.chain, fun a ha b hb => ?_⟩
    rw [h.last] at ha
    rw [h'.head] at hb
    cases ha
    cases hb
    exact .refl t

theorem fillsAlong_stages {α : Type} {write : Store → α → Written}
    {through : Store → α → List Store}
    (h : ∀ (s : Store) a, s.FillsAlong (through s a) (write s a).store) (s : Store)
    (as : List α) :
    s.FillsAlong (stages write through s as) (writeEach write s as).store := by
  induction as generalizing s with
  | nil => exact fillsAlong_singleton s
  | cons a as ih =>
    have hfirst := h s a
    rw [stages, writeEach]
    cases hw : write s a with
    | mk t failure =>
      rw [hw] at hfirst
      cases failure with
      | none => exact hfirst.append (ih t)
      | some e => exact hfirst

theorem setType_cases (s : Store) (n : Name) (type : Ty Name) :
    (s.setType n type).store = s ∨ s.setType n type = ⟨(s.setType n type).store, none⟩ := by
  unfold setType write
  split
  · exact .inl rfl
  · exact .inr rfl

theorem retypes_setType (s : Store) (n : Name) (type : Ty Name) :
    s.Retypes (s.setType n type).store := by
  rcases s.setType_cases n type with hsame | hset
  · rw [hsame]
    exact .refl s
  · exact retypes_of_setType hset

theorem fills_setType (hn : s.type n = .untyped) (type : Ty Name) :
    s.Fills (s.setType n type).store := by
  rcases s.setType_cases n type with hsame | hset
  · rw [hsame]
    exact .refl s
  · exact .of_setType hset hn

theorem fills_unifyVar (s : Store) (chan : Name) (elem : Ty Name) (var : Name) :
    s.Fills (s.unifyVar chan elem var).store := by
  apply unifyVar_store_induction (motive := s.Fills) (.refl s)
  intro n type awaits _ _
  exact fills_setType awaits.1 type

theorem fills_unify (s : Store) (p : Process Name) : s.Fills (s.unify p).store := by
  apply unify_store_induction (motive := s.Fills) (.refl s)
  intro _ chan _ _ _ elem _ var t ht
  exact ht.trans (t.fills_unifyVar chan elem var)

theorem retypes_infer (s : Store) (p : Process Name) : s.Retypes (s.infer p).store := by
  apply infer_store_induction (motive := s.Retypes) (.refl s)
  intro t ht n names
  exact ht.trans (t.retypes_setType n _)

theorem retypes_inferAndUnify (s : Store) (p : Process Name) :
    s.Retypes (s.inferAndUnify p).store := by
  apply inferAndUnify_store_induction (motive := s.Retypes) (s.retypes_infer p)
  intro t ht
  exact ht.trans (t.fills_unify p).retypes

theorem fillsAlong_receiveStages (s : Store) (chan : Name) (vars : List Name) :
    s.FillsAlong (s.receiveStages chan vars) (s.unifyReceive chan vars).store := by
  unfold receiveStages unifyReceive
  cases s.deref (s.type chan) with
  | chan elem =>
    dsimp only
    by_cases harity : elem.arity = vars.length
    · rw [if_pos harity, if_pos harity]
      apply fillsAlong_stages
      intro s q
      have hfills := s.fills_unifyVar chan q.1 q.2
      exact ⟨rfl, rfl, by simpa using hfills⟩
    · rw [if_neg harity, if_neg harity]
      exact fillsAlong_singleton s
  | _ => exact fillsAlong_singleton s

theorem fillsAlong_unifyStages (s : Store) (p : Process Name) :
    s.FillsAlong (s.unifyStages p) (s.unify p).store := by
  apply fillsAlong_stages
  intro s r
  exact s.fillsAlong_receiveStages r.1 r.2

/-- A store on the way is filled in to every one that comes after it. -/
theorem FillsAlong.pairwise {l : List Store} (h : s.FillsAlong l t) : l.Pairwise Fills := by
  have htrans : IsTrans Store Fills := ⟨fun _ _ _ => Fills.trans⟩
  exact List.isChain_iff_pairwise.mp h.chain

theorem loopFree_load (written : Process Occurrence) :
    (Store.empty.load written).2.LoopFree := by
  apply loopFree_of_not_forwards
  intro n m hnm
  obtain ⟨e, he⟩ := Option.isSome_iff_exists.mp (isLive_of_forwards hnm)
  obtain ⟨⟨label, hint, span⟩, -, rfl⟩ := exists_entry_of_get?_load written he
  rw [Forwards, type_of_get? he] at hnm
  cases hint <;> cases hnm

end Store

/-- Whether the operation binds a process or finds the types of its names. -/
def Operation.isTyping : Operation → Bool
  | bind | infer | unify | check => true
  | _ => false

theorem Store.LoopFree.run {s : Store} (h : s.LoopFree) {op : Operation} (typing : op.isTyping)
    (held : List Name) (p : Process Name) : (op.run held s p).store.LoopFree := by
  cases op with
  | bind => exact h
  | infer => exact h.infer p
  | unify => exact h.unify p
  | check => exact (h.retain _).inferAndUnify _
  | _ => cases typing

namespace Session

def performAll : Session → List Order → Session
  | t, [] => t
  | t, order :: orders => (t.perform order).1.performAll orders

/-- Whether the order is to bind a process or a part of one, or to find the types of its names. -/
def Order.isTyping (order : Order) : Bool :=
  match order.request with
  | .act op => op.isTyping
  | _ => false

theorem loopFree_perform {t : Session} (h : t.store.LoopFree) {order : Order}
    (typing : order.isTyping) : (t.perform order).1.store.LoopFree := by
  unfold Order.isTyping at typing
  unfold perform
  split
  · exact h
  · split
    · exact h
    · split at typing
      · next op hop =>
        rw [hop]
        exact (h.run typing _ _).retain _
      · cases typing

theorem loopFree_performAll {t : Session} (h : t.store.LoopFree) {orders : List Order}
    (typing : ∀ order ∈ orders, order.isTyping) : (t.performAll orders).store.LoopFree := by
  induction orders generalizing t with
  | nil => exact h
  | cons order orders ih =>
    obtain ⟨hfirst, hrest⟩ := List.forall_mem_cons.mp typing
    exact ih (loopFree_perform h hfirst) hrest

/-- No chain of references loops in a program that was read, nor in a session that had none before,
whatever is bound and typed in it. And whatever unification comes through on its way, it fills in only. -/
theorem typing_loopFree :
    (∀ source p, Program.parse source = .ok p → p.store.LoopFree) ∧
      (∀ t : Session, t.store.LoopFree → ∀ orders : List Order,
        (∀ order ∈ orders, order.isTyping) → (t.performAll orders).store.LoopFree) ∧
      ∀ (s : Store) (p : Process Name), (s.unifyStages p).head? = some s ∧
        (s.unifyStages p).getLast? = some (s.unify p).store ∧
        (s.unifyStages p).Pairwise Store.Fills := by
  refine ⟨fun source p parsed => ?_, fun t h orders typing => loopFree_performAll h typing,
    fun s p => ?_⟩
  · obtain ⟨written, -, rfl⟩ := Program.parse_eq_ok_iff_all.mp parsed
    exact Store.loopFree_load written
  · have hfills := s.fillsAlong_unifyStages p
    exact ⟨hfills.head, hfills.last, hfills.pairwise⟩

/-- A session in which one name comes to refer to another one before a check fails. -/
theorem typing_loopFree_forwarding :
    ∃ p, Program.parse "(new a)((a<b> | a(x).0) | a(y,z).0)" = .ok p ∧
      let t : Session := ⟨p.store, [], [p.process]⟩
      let orders : List Order :=
        [⟨0, [], .act .check⟩, ⟨0, [0, 1], .act .unify⟩, ⟨0, [], .act .infer⟩,
          ⟨0, [0, 0], .act .check⟩]
      (t.perform ⟨0, [], .act .check⟩).2.result.toBool = false ∧
        (t.performAll orders).store.Forwards ⟨4⟩ ⟨2⟩ ∧
        (∀ order ∈ orders, order.isTyping) ∧ (t.performAll orders).store.LoopFree := by
  obtain ⟨p, hp, hfails, hforwards, htyping⟩ :
      ∃ p, Program.parse "(new a)((a<b> | a(x).0) | a(y,z).0)" = .ok p ∧
        let t : Session := ⟨p.store, [], [p.process]⟩
        let orders : List Order :=
          [⟨0, [], .act .check⟩, ⟨0, [0, 1], .act .unify⟩, ⟨0, [], .act .infer⟩,
          ⟨0, [0, 0], .act .check⟩]
        (t.perform ⟨0, [], .act .check⟩).2.result.toBool = false ∧
          (t.performAll orders).store.Forwards ⟨4⟩ ⟨2⟩ ∧ ∀ order ∈ orders, order.isTyping := by
    decide +kernel
  obtain ⟨hread, hkeep, -⟩ := typing_loopFree
  exact ⟨p, hp, hfails, hforwards, htyping,
    hkeep ⟨p.store, [], [p.process]⟩ (hread _ p hp) _ htyping⟩

end Session
end PiCalculus
