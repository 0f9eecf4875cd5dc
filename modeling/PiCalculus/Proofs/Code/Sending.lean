import Mathlib
import PiCalculus.Proofs.Binding.Sorted
import PiCalculus.Proofs.Code.Blocks
import PiCalculus.Proofs.Typing.ByUse
import PiCalculus.Proofs.Typing.Wording

/-! What emitted code declares a channel for and what it sends on it. The declaration writes the type
that the channel has in the end, which is that of the last send. Each send of several values writes the
types of its own values, which nothing compares with those of the last one. -/

namespace PiCalculus

namespace Code

variable {τ : Type} {st x : Statement τ} {block : List (Statement τ)}

def Contains (block : List (Statement τ)) (st : Statement τ) : Prop := ∃ b ∈ blocks block, st ∈ b

theorem contains_iff : Contains block st ↔ st ∈ block ∨ ∃ b ∈ innerBlocks block, st ∈ b := by
  simp [Contains, blocks]

theorem contains_cons :
    Contains (x :: block) st ↔ st = x ∨ (∃ b ∈ x.blocks, st ∈ b) ∨ Contains block st := by
  simp only [contains_iff, innerBlocks_cons, List.mem_cons, List.mem_append, or_and_right, exists_or]
  rw [or_assoc, or_left_comm (a := st ∈ block)]

theorem contains_beside {bs : List (List (Statement τ))} (h : block ∈ bs) (hst : Contains block st) :
    Contains (beside bs) st := by
  fun_induction beside bs with
  | case1 => cases h
  | case2 c =>
    obtain rfl := List.mem_singleton.mp h
    exact hst
  | case3 c bs hmore ih =>
    rw [contains_cons, Statement.blocks_spawn]
    rcases List.mem_cons.mp h with rfl | h
    · exact .inr (.inl hst)
    · exact .inr (.inr (ih h))

end Code

namespace Store

open Code Process

variable {s : Store} {p q : Process Name} {st : Statement (Ty Name)}

theorem contains_of_child (hq : q ∈ p.children) (h : Contains (s.block q) st) :
    Contains (s.block p) st := by
  cases p with
  | nil => cases hq
  | send chan values => cases hq
  | receive chan vars body =>
    obtain rfl := List.mem_singleton.mp hq
    rw [block, contains_cons]
    exact .inr (.inr h)
  | par ps =>
    rw [block]
    exact contains_beside (List.mem_map_of_mem hq) h
  | replicate body =>
    obtain rfl := List.mem_singleton.mp hq
    rw [block, contains_cons, Statement.blocks_loop]
    exact .inr (.inl h)
  | restrict name body =>
    obtain rfl := List.mem_singleton.mp hq
    rw [block, contains_cons]
    exact .inr (.inr h)

/-- The code of every subprocess is in that of the process. -/
theorem contains_of_mem_breadthFirst (hq : q ∈ p.breadthFirst) (h : Contains (s.block q) st) :
    Contains (s.block p) st := by
  have hstep : ∀ p : Process Name, Contains (s.block p) st ↔
      Contains (s.block p) st ∨ ∃ q ∈ p.children, Contains (s.block q) st := by
    intro p
    constructor
    · exact .inl
    · rintro (h | ⟨q, hq, h⟩)
      · exact h
      · exact contains_of_child hq h
  exact (exists_mem_breadthFirst hstep p).mp ⟨q, hq, h⟩

theorem contains_declaration {n : Name} (hn : n ∈ p.restrictedNames) :
    Contains (s.block p) (introduce (s.label n) (s.deref (s.type n))) := by
  obtain ⟨q, hq, hroot⟩ := (exists_mem_breadthFirst (fun _ => mem_restrictedNames_iff) p).mpr hn
  obtain ⟨body, rfl⟩ : ∃ body, q = .restrict n body := by
    cases q with
    | restrict name body => exact ⟨body, by simpa [rootMentions, rootNames, eq_comm] using hroot⟩
    | _ => simp [rootMentions, rootNames] at hroot
  apply contains_of_mem_breadthFirst hq
  rw [block, contains_cons]
  exact .inl rfl

theorem contains_literal {chan : Name} {values : List Name} (h : .sent chan values ∈ p.uses)
    (several : 1 < values.length) : Contains (s.block p)
      (.sendAll (s.label chan) (values.map fun v => (s.label v, s.type v))) := by
  apply contains_of_mem_breadthFirst (sent_mem_uses_iff.mp h)
  rw [s.block_send_several chan several, contains_cons]
  exact .inl rfl

section texts

variable {a n : Name} {last values : List Name}

theorem render_make (s : Store) (name : String) (t : Ty Name) :
    (introduce name (.chan t)).render s.renderType = name ++ " := make(chan " ++ s.renderType t ++ "); " := by
  have hchan : s.renderType (.chan t) = "chan " ++ s.renderType t := by
    rw [renderType, unfold_chan, Ty.render, renderType]
  rw [introduce, Statement.render, hchan]
  simp only [String.append_assoc]
  rfl

def fieldsOf (s : Store) (values : List Name) : String :=
  Ty.fields 0 (values.map fun v => s.unfold (s.type v))

theorem fieldsOf_eq (s : Store) (values : List Name) : s.fieldsOf values =
    ";".intercalate ((values.map fun v => s.renderType (s.type v)).mapIdx
      fun i text => "e" ++ toString i ++ " " ++ text) := by
  rw [fieldsOf, Ty.fields, List.map_map]
  simp only [Nat.zero_add]
  rfl

theorem render_sendAll (s : Store) (chan : String) (values : List Name) :
    (Statement.sendAll chan (values.map fun v => (s.label v, s.type v))).render s.renderType =
      chan ++ " <- struct \x7b" ++ s.fieldsOf values ++ "\x7d\x7b" ++
        ",".intercalate (values.map s.label) ++ "\x7d" := by
  have hfields : (values.map fun v => (s.label v, s.type v)).mapIdx
        (fun i value => "e" ++ toString i ++ " " ++ s.renderType value.2) =
      (values.map fun v => s.renderType (s.type v)).mapIdx
        fun i text => "e" ++ toString i ++ " " ++ text := by
    apply List.ext_getElem?
    intro i
    simp only [List.getElem?_mapIdx, List.getElem?_map, Option.map_map]
    rfl
  rw [Statement.render, sendAllText, fieldsOf_eq, ← hfields, List.map_map]
  rfl

theorem render_composite (ts : List Shape) :
    (Ty.composite ts : Shape).render = "struct\x7b" ++ Ty.fields 0 ts ++ "\x7d" := by
  rw [Ty.render, Ty.fields]
  simp only [Nat.zero_add]

theorem unfold_carrying (acyclic : s.Acyclic) (h : ∀ n, last ≠ [n]) :
    s.unfold (.carrying last) = .composite (last.map fun v => s.unfold (s.type v)) := by
  rw [Ty.carrying_of_ne_singleton h, unfold_composite, List.map_map]
  exact congrArg _ (List.map_congr_left fun v _ => acyclic.unfold_reference v)

theorem labels_carrying (ns : List Name) : (Ty.carrying ns : Ty Name).labels = [] := by
  unfold Ty.carrying
  split
  · rw [Ty.labels]
  · rw [Ty.labels, List.flatMap_map]
    exact List.flatMap_eq_nil_iff.mpr fun n _ => by rw [Ty.labels]

/-- A channel is declared for what a send writes exactly if each value has the type, as it is written,
of the value in its place in the last send. -/
theorem renderType_carrying_eq_iff (acyclic : s.Acyclic) (shallow : s.Shallow) (worded : s.Worded)
    (several : 1 < values.length) :
    s.renderType (.carrying last) = "struct\x7b" ++ s.fieldsOf values ++ "\x7d" ↔
      values.map (fun v => s.renderType (s.type v)) = last.map fun v => s.renderType (s.type v) := by
  constructor
  · intro h
    rw [renderType, fieldsOf, ← render_composite] at h
    have hlast : (s.unfold (.carrying last)).Worded := worded_unfold worded (by simp [labels_carrying])
    have hvalues : (Ty.composite (values.map fun v => s.unfold (s.type v)) : Shape).Worded := by
      apply Ty.worded_composite.mpr
      intro t ht
      obtain ⟨v, -, rfl⟩ := List.mem_map.mp ht
      exact worded_unfold worded (worded v)
    have hshape := hlast.render_inj hvalues h
    by_cases hone : ∃ n, last = [n]
    · obtain ⟨n, rfl⟩ := hone
      exact absurd hshape (shallow.unfoldWithin_ne_composite (x := .reference n) (by simp) _ [] _)
    · push Not at hone
      rw [unfold_carrying acyclic hone, Ty.composite.injEq] at hshape
      have htexts := congrArg (List.map Ty.render) hshape
      rw [List.map_map, List.map_map] at htexts
      exact htexts.symm
  · intro h
    have hone : ∀ n, last ≠ [n] := by
      rintro n rfl
      have hlength := congrArg List.length h
      rw [List.length_map, List.length_map, List.length_singleton] at hlength
      omega
    rw [renderType, unfold_carrying acyclic hone, render_composite, ← fieldsOf, fieldsOf_eq, fieldsOf_eq, h]

end texts

end Store

namespace Program

open Code Process

variable {source : String} {p : Program}

/-- Code is only written after a check that succeeds. -/
theorem check_of_generate {options : Option Options} {limit : Option Nat} {code : String}
    (h : (p.run (.generate options limit)).2.result = .ok (.text code)) :
    (p.run .check).2.result = .ok .none := by
  obtain ⟨value, hvalue, -⟩ := Grammar.bind_eq_ok h
  have hresult : (p.run .check).2.result = .ok value := hvalue
  rw [result_check] at hresult ⊢
  cases hwritten : (p.held.inferAndUnify p.bound).result with
  | error e =>
    rw [hwritten] at hresult
    cases hresult
  | ok _ => rfl

/-- A check leaves a channel that is sent on with the type of the last send. -/
theorem type_of_sent (parsed : Program.parse source = .ok p)
    (ok : (p.run .check).2.result = .ok .none) {a : Name} {last : List Name}
    (hlast : (Use.sends a p.bound.uses).getLast? = some last) :
    (p.run .check).2.store.type a = .chan (.carrying last) := by
  obtain ⟨inferred, hchecks⟩ := checks parsed ok
  have hinferring : p.held.Inferring := inferring_held parsed
  have hinferrable : p.held.Inferrable p.bound :=
    ⟨((plain_of_parse parsed).retain _).writable, isLive_held parsed,
      fun use _ => hinferring.direct use.chan⟩
  obtain ⟨t, ht, htype⟩ := hinferring.type_writeEach hinferrable fun use huse => huse
  obtain rfl : inferred = t := congrArg Written.store (hchecks.infers.symm.trans ht)
  have hinferred : inferred.type a = .chan (.carrying last) := by
    rw [htype, Use.foldl_retype, Use.typeAfter, hlast]
  rw [← hinferred]
  apply hchecks.fills.keeps
  simp [hinferred]

theorem sent_of_mem_sends {a : Name} {values : List Name} {uses : List (Use Name)}
    (h : values ∈ Use.sends a uses) : .sent a values ∈ uses := by
  obtain ⟨use, huse, hsent⟩ := List.mem_filterMap.mp h
  cases use with
  | sent chan names =>
    obtain ⟨rfl, rfl⟩ : chan = a ∧ names = values := by simpa [Use.sent?] using hsent
    exact huse
  | received chan vars => cases hsent

/-- In code for a program without recursive types every restricted name is declared as a channel for the
structure that a send on it makes, but for the blank in that, exactly if the types of the values are
written as those of the last send on the name. -/
theorem generate_declares_sent (parsed : Program.parse source = .ok p) {options : Option Options}
    {limit : Option Nat} {code : String}
    (generated : (p.run (.generate options limit)).2.result = .ok (.text code))
    (acyclic : (p.run (.generate options limit)).2.store.Acyclic) :
    let outcome := (p.run (.generate options limit)).2
    let s := outcome.store
    let block := s.block outcome.process
    let typeText := fun v => s.renderType (s.type v)
    code = wrap options p.calculi (render s.renderType block) ∧
      ∀ a ∈ outcome.process.restrictedNames, ∀ values ∈ Use.sends a outcome.process.uses,
        1 < values.length →
        let declaration := introduce (s.label a) (s.deref (s.type a))
        let literal := Statement.sendAll (s.label a) (values.map fun v => (s.label v, s.type v))
        Contains block declaration ∧ Contains block literal ∧
        ∃ element fields last,
          declaration.render s.renderType = s.label a ++ " := make(chan " ++ element ++ "); " ∧
          literal.render s.renderType = s.label a ++ " <- struct \x7b" ++ fields ++ "\x7d\x7b" ++
            ",".intercalate (values.map s.label) ++ "\x7d" ∧
          (Use.sends a outcome.process.uses).getLast? = some last ∧
          (element = "struct\x7b" ++ fields ++ "\x7d" ↔ values.map typeText = last.map typeText) := by
  intro outcome s block typeText
  have hchecked := check_of_generate generated
  obtain ⟨inferred, hchecks⟩ := checks parsed hchecked
  have hworded : s.Worded := (worded_held parsed).inferAndUnify p.bound
  refine ⟨eq_of_generate generated, fun a ha values hsends several => ?_⟩
  have hsent := sent_of_mem_sends hsends
  obtain ⟨last, hlast⟩ : ∃ last, (Use.sends a p.bound.uses).getLast? = some last :=
    ⟨_, List.getLast?_eq_some_getLast (List.ne_nil_of_mem hsends)⟩
  have htype : s.type a = .chan (.carrying last) := type_of_sent parsed hchecked hlast
  have hderef : s.deref (s.type a) = .chan (.carrying last) := by
    rw [htype, Store.deref_of_ne_reference (by simp)]
  refine ⟨Store.contains_declaration ha, Store.contains_literal hsent several,
    s.renderType (.carrying last), s.fieldsOf values, last, ?_, s.render_sendAll _ _, hlast,
    Store.renderType_carrying_eq_iff acyclic hchecks.shallow hworded several⟩
  rw [hderef]
  exact s.render_make _ _

/-- A send of other names than the last one has, which have the same types. -/
theorem generate_declares_sent_alike :
    ∃ p, Program.parse "(new a)(new b:int,c:bool,d:int)(a<d,c> | a<b,c>)" = .ok p ∧
      let outcome := (p.run (.generate none none)).2
      let s := outcome.store
      let literal := Statement.sendAll (s.label ⟨0⟩) ([⟨3⟩, ⟨2⟩].map fun v => (s.label v, s.type v))
      outcome.result = .ok (.text ("a := make(chan struct\x7be0 int;e1 bool\x7d); var b int; var c bool; " ++
        "var d int; go func()\x7b a <- struct \x7be0 int;e1 bool\x7d\x7bd,c\x7d \x7d()\n" ++
        "a <- struct \x7be0 int;e1 bool\x7d\x7bb,c\x7d")) ∧
      s.Acyclic ∧ ⟨0⟩ ∈ outcome.process.restrictedNames ∧
      [⟨3⟩, ⟨2⟩] ∈ Use.sends ⟨0⟩ outcome.process.uses ∧
      ∃ element fields, element = "struct\x7b" ++ fields ++ "\x7d" ∧
        (introduce (s.label ⟨0⟩) (s.deref (s.type ⟨0⟩))).render s.renderType =
          s.label ⟨0⟩ ++ " := make(chan " ++ element ++ "); " ∧
        literal.render s.renderType = s.label ⟨0⟩ ++ " <- struct \x7b" ++ fields ++ "\x7d\x7b" ++
          ",".intercalate ([⟨3⟩, ⟨2⟩].map s.label) ++ "\x7d" := by
  obtain ⟨p, parsed, generated, later, hrestricted, hsends, hlast, htexts⟩ :
      ∃ p, Program.parse "(new a)(new b:int,c:bool,d:int)(a<d,c> | a<b,c>)" = .ok p ∧
        let outcome := (p.run (.generate none none)).2
        let s := outcome.store
        outcome.result =
            .ok (.text ("a := make(chan struct\x7be0 int;e1 bool\x7d); var b int; var c bool; " ++
          "var d int; go func()\x7b a <- struct \x7be0 int;e1 bool\x7d\x7bd,c\x7d \x7d()\n" ++
          "a <- struct \x7be0 int;e1 bool\x7d\x7bb,c\x7d")) ∧
        (∀ i < s.size, ∀ m ∈ (s.type ⟨i⟩).references, i < m.id) ∧
        ⟨0⟩ ∈ outcome.process.restrictedNames ∧
        [⟨3⟩, ⟨2⟩] ∈ Use.sends ⟨0⟩ outcome.process.uses ∧
        (Use.sends ⟨0⟩ outcome.process.uses).getLast? = some [⟨1⟩, ⟨2⟩] ∧
        [⟨3⟩, ⟨2⟩].map (fun v => s.renderType (s.type v)) =
          [⟨1⟩, ⟨2⟩].map fun v => s.renderType (s.type v) := by
    decide +kernel
  have acyclic : (p.run (.generate none none)).2.store.Acyclic := Store.not_transGen_pointsTo later
  obtain ⟨-, hsent⟩ := generate_declares_sent parsed generated acyclic
  obtain ⟨-, -, element, fields, last, hdeclaration, hliteral, hlast', hiff⟩ :=
    hsent ⟨0⟩ hrestricted _ hsends (by simp)
  obtain rfl : last = [⟨1⟩, ⟨2⟩] := Option.some.inj (hlast'.symm.trans hlast)
  exact ⟨p, parsed, generated, acyclic, hrestricted, hsends, element, fields, hiff.mpr htexts,
    hdeclaration, hliteral⟩

/-- The first of two sends has the same types as the last one in another order. -/
theorem sent_otherwise_than_declared :
    ∃ p, Program.parse "(new a)(new b:int)(new c:bool)(a<b,c> | a<c,b>)" = .ok p ∧
      let outcome := (p.run (.generate none none)).2
      let s := outcome.store
      let literal := Statement.sendAll (s.label ⟨0⟩) ([⟨1⟩, ⟨2⟩].map fun v => (s.label v, s.type v))
      outcome.result = .ok (.text ("a := make(chan struct\x7be0 bool;e1 int\x7d); var b int; var c bool; " ++
        "go func()\x7b a <- struct \x7be0 int;e1 bool\x7d\x7bb,c\x7d \x7d()\n" ++
        "a <- struct \x7be0 bool;e1 int\x7d\x7bc,b\x7d")) ∧
      s.Acyclic ∧ ⟨0⟩ ∈ outcome.process.restrictedNames ∧
      [⟨1⟩, ⟨2⟩] ∈ Use.sends ⟨0⟩ outcome.process.uses ∧
      ∃ element fields, element ≠ "struct\x7b" ++ fields ++ "\x7d" ∧
        (introduce (s.label ⟨0⟩) (s.deref (s.type ⟨0⟩))).render s.renderType =
          s.label ⟨0⟩ ++ " := make(chan " ++ element ++ "); " ∧
        literal.render s.renderType = s.label ⟨0⟩ ++ " <- struct \x7b" ++ fields ++ "\x7d\x7b" ++
          ",".intercalate ([⟨1⟩, ⟨2⟩].map s.label) ++ "\x7d" := by
  obtain ⟨p, parsed, generated, later, hrestricted, hsends, hdeclaration, hliteral⟩ :
      ∃ p, Program.parse "(new a)(new b:int)(new c:bool)(a<b,c> | a<c,b>)" = .ok p ∧
        let outcome := (p.run (.generate none none)).2
        let s := outcome.store
        outcome.result =
            .ok (.text ("a := make(chan struct\x7be0 bool;e1 int\x7d); var b int; var c bool; " ++
          "go func()\x7b a <- struct \x7be0 int;e1 bool\x7d\x7bb,c\x7d \x7d()\n" ++
          "a <- struct \x7be0 bool;e1 int\x7d\x7bc,b\x7d")) ∧
        (∀ i < s.size, ∀ m ∈ (s.type ⟨i⟩).references, i < m.id) ∧
        ⟨0⟩ ∈ outcome.process.restrictedNames ∧
        [⟨1⟩, ⟨2⟩] ∈ Use.sends ⟨0⟩ outcome.process.uses ∧
        (introduce (s.label ⟨0⟩) (s.deref (s.type ⟨0⟩))).render s.renderType =
          s.label ⟨0⟩ ++ " := make(chan " ++ "struct\x7be0 bool;e1 int\x7d" ++ "); " ∧
        (Statement.sendAll (s.label ⟨0⟩) ([⟨1⟩, ⟨2⟩].map fun v => (s.label v, s.type v))).render
            s.renderType = s.label ⟨0⟩ ++ " <- struct \x7b" ++ "e0 int;e1 bool" ++ "\x7d\x7b" ++
          ",".intercalate ([⟨1⟩, ⟨2⟩].map s.label) ++ "\x7d" := by
    decide +kernel
  exact ⟨p, parsed, generated, Store.not_transGen_pointsTo later, hrestricted, hsends, _, _,
    by decide, hdeclaration, hliteral⟩

end Program

end PiCalculus
