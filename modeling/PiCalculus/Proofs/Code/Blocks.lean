import Mathlib
import PiCalculus.Code.Emission
import PiCalculus.Proofs.Code.Limit
import PiCalculus.Proofs.Labelling.Renumbered
import PiCalculus.Proofs.Reduction.Tidying
import PiCalculus.Proofs.Reduction.Locality
import PiCalculus.Proofs.Repl.Commands
import PiCalculus.Proofs.Text.Parsing

/-! What the blocks of emitted code declare. Restrictions, continuations and the last component of a
composition go into the block that they stand in, so a block declares binders from far below. Where all
binders have labels of their own it declares each once. But the variable that holds a received
structure has always the same label. -/

namespace PiCalculus

namespace Code

variable {τ : Type}

/-- The identifiers that a statement declares in its block, in the order of its text. -/
def Statement.declared : Statement τ → List String
  | make name _ | declare name _ => [name]
  | receive _ [] => []
  | receive _ [var] => [var]
  | receive _ vars => received :: vars
  | finish | send .. | sendAll .. | spawn _ | loop _ => []

/-- Those of them that stand for names. -/
def Statement.introduced : Statement τ → List String
  | make name _ | declare name _ => [name]
  | receive _ vars => vars
  | finish | send .. | sendAll .. | spawn _ | loop _ => []

/-- Whether a statement receives several values in one structure. -/
def Statement.unpacks : Statement τ → Bool
  | receive _ vars => 1 < vars.length
  | _ => false

def Statement.blocks : Statement τ → List (List (Statement τ))
  | spawn body | loop body => body :: body.flatMap blocks
  | finish | make .. | declare .. | receive .. | send .. | sendAll .. => []
termination_by statement => sizeOf statement

def innerBlocks (block : List (Statement τ)) : List (List (Statement τ)) := block.flatMap Statement.blocks

def blocks (block : List (Statement τ)) : List (List (Statement τ)) := block :: innerBlocks block

/-- What a block declares itself, and not a block inside it. -/
def declared (block : List (Statement τ)) : List String := block.flatMap Statement.declared

def introduced (block : List (Statement τ)) : List String := block.flatMap Statement.introduced

theorem Statement.declared_eq (st : Statement τ) :
    st.declared = (if st.unpacks then [received] else []) ++ st.introduced := by
  cases st with
  | receive chan vars =>
    match vars with
    | [] => rfl
    | [_] => rfl
    | _ :: _ :: _ => simp [declared, introduced, unpacks]
  | _ => rfl

section count

variable {block : List (Statement τ)}

theorem count_declared_of_ne {x : String} (hx : x ≠ received) :
    (declared block).count x = (introduced block).count x := by
  induction block with
  | nil => rfl
  | cons st block ih =>
    rw [declared, introduced] at ih ⊢
    rw [List.flatMap_cons, List.flatMap_cons, List.count_append, List.count_append, ih,
      st.declared_eq]
    split <;> simp [hx.symm]

theorem count_declared_received (h : received ∉ introduced block) :
    (declared block).count received = block.countP Statement.unpacks := by
  induction block with
  | nil => rfl
  | cons st block ih =>
    rw [introduced, List.flatMap_cons, List.mem_append, not_or] at h
    have hst : st.introduced.count received = 0 := List.count_eq_zero.mpr h.1
    rw [declared, List.flatMap_cons, List.count_append, ← declared, ih h.2, st.declared_eq,
      List.countP_cons, List.count_append, hst, Nat.add_zero, Nat.add_comm]
    split <;> simp

end count

section blocks

variable {b block : List (Statement τ)} {st : Statement τ}

theorem innerBlocks_cons : innerBlocks (st :: block) = st.blocks ++ innerBlocks block := List.flatMap_cons

theorem Statement.blocks_spawn (body : List (Statement τ)) :
    (spawn body).blocks = Code.blocks body := by
  rw [Statement.blocks]
  rfl

theorem Statement.blocks_loop (body : List (Statement τ)) :
    (loop body).blocks = Code.blocks body := by
  rw [Statement.blocks]
  rfl

theorem sublist_of_mem_blocks_singleton (hnames : st.introduced = []) (hblocks : st.blocks = [])
    (names : List String) : ∀ b ∈ blocks [st], (introduced b).Sublist names := by
  rw [blocks, innerBlocks_cons, hblocks]
  refine List.forall_mem_cons.mpr ⟨?_, by simp [innerBlocks]⟩
  simp [introduced, hnames]

theorem mem_innerBlocks_beside {bs : List (List (Statement τ))} (h : b ∈ innerBlocks (beside bs)) :
    ∃ c ∈ bs, b ∈ blocks c := by
  fun_induction beside bs with
  | case1 => cases h
  | case2 c => exact ⟨c, List.mem_singleton_self c, List.mem_cons_of_mem c h⟩
  | case3 c bs hmore ih =>
    rw [innerBlocks_cons, List.mem_append, Statement.blocks_spawn] at h
    rcases h with hb | hb
    · exact ⟨c, List.mem_cons_self, hb⟩
    · obtain ⟨d, hd, hb⟩ := ih hb
      exact ⟨d, List.mem_cons_of_mem c hd, hb⟩

theorem introduced_beside_sublist (bs : List (List (Statement τ))) :
    (introduced (beside bs)).Sublist (bs.flatMap introduced) := by
  fun_induction beside bs with
  | case1 => exact .slnil
  | case2 c => simp
  | case3 c bs hmore ih =>
    rw [introduced, List.flatMap_cons, List.flatMap_cons]
    exact ih.trans (List.sublist_append_right ..)

end blocks

end Code

namespace Store

open Code Process

variable (s : Store)

theorem block_send_several (chan : Name) {values : List Name} (h : 1 < values.length) :
    s.block (.send chan values) =
      [.sendAll (s.label chan) (values.map fun v => (s.label v, s.type v))] := by
  obtain ⟨v, w, values, rfl⟩ : ∃ v w vs, values = v :: w :: vs := by
    match values with
    | _ :: _ :: _ => exact ⟨_, _, _, rfl⟩
  rw [block] <;> simp

theorem block_send (chan : Name) (values : List Name) : ∃ st, s.block (.send chan values) = [st] ∧
    st.introduced = [] ∧ st.blocks = [] := by
  by_cases h : 1 < values.length
  · exact ⟨_, s.block_send_several chan h, rfl, by rw [Statement.blocks]⟩
  · match values with
    | [] => exact ⟨_, by rw [block], rfl, by rw [Statement.blocks]⟩
    | [_] => exact ⟨_, by rw [block], rfl, by rw [Statement.blocks]⟩
    | _ :: _ :: _ => exact absurd (by simp) h

/-- Every block declares binders of the process, each at most once and in the order of the process. -/
theorem introduced_sublist_binders (p : Process Name) :
    ∀ b ∈ blocks (s.block p), (introduced b).Sublist (p.binders.map s.label) := by
  induction p with
  | nil =>
    rw [block]
    exact sublist_of_mem_blocks_singleton rfl (by rw [Statement.blocks]) _
  | send chan values =>
    obtain ⟨st, hst, hnames, hblocks⟩ := s.block_send chan values
    rw [hst]
    exact sublist_of_mem_blocks_singleton hnames hblocks _
  | receive chan vars body ih =>
    -- The statements of the body stand in the same block, and its inner blocks are inner ones here
    -- too.
    obtain ⟨hown, hinner⟩ := List.forall_mem_cons.mp ih
    have hnone : (Statement.receive (s.label chan) (vars.map s.label) :
        Statement (Ty Name)).blocks = [] := by
      rw [Statement.blocks]
    rw [block, blocks, innerBlocks_cons, hnone, List.nil_append, binders, List.map_append]
    refine List.forall_mem_cons.mpr ⟨?_, fun b hb => ?_⟩
    · rw [introduced, List.flatMap_cons]
      exact hown.append_left _
    · exact (hinner b hb).trans (List.sublist_append_right ..)
  | par ps ih =>
    rw [block, blocks, binders, List.map_flatMap]
    refine List.forall_mem_cons.mpr ⟨?_, fun b hb => ?_⟩
    · refine (introduced_beside_sublist _).trans ?_
      rw [List.flatMap_map]
      exact flatMap_sublist fun q hq => ih q hq _ List.mem_cons_self
    · obtain ⟨c, hc, hb⟩ := mem_innerBlocks_beside hb
      obtain ⟨q, hq, rfl⟩ := List.mem_map.mp hc
      have hpart := (binders_sublist_par hq).map s.label
      rw [binders, List.map_flatMap] at hpart
      exact (ih q hq b hb).trans hpart
  | replicate body ih =>
    have hloop : innerBlocks [.loop (s.block body)] = blocks (s.block body) := by
      rw [innerBlocks_cons, Statement.blocks_loop]
      exact List.append_nil _
    rw [block, blocks, hloop, binders]
    exact List.forall_mem_cons.mpr ⟨List.nil_sublist _, ih⟩
  | restrict name body ih =>
    obtain ⟨hown, hinner⟩ := List.forall_mem_cons.mp ih
    have hintroduce : ∀ t : Ty Name, (introduce (s.label name) t).introduced = [s.label name] ∧
        (introduce (s.label name) t).blocks = [] := by
      intro t
      cases t <;> simp [introduce, Statement.introduced, Statement.blocks]
    obtain ⟨hname, hnone⟩ := hintroduce (s.deref (s.type name))
    rw [block, blocks, innerBlocks_cons, hnone, List.nil_append, binders, List.map_cons]
    refine List.forall_mem_cons.mpr ⟨?_, fun b hb => ?_⟩
    · rw [introduced, List.flatMap_cons, hname]
      exact hown.cons_cons _
    · exact (hinner b hb).trans (List.sublist_cons_self ..)

variable {s} in
/-- Where the binders have labels of their own, the only identifier that a block can declare again is
the variable for a received structure, which it declares as often as it takes one apart. -/
theorem declared_of_apart {p : Process Name} (apart : (p.binders.map s.label).Nodup)
    (hreceived : received ∉ p.binders.map s.label) :
    ∀ b ∈ blocks (s.block p), (∀ x ≠ received, (declared b).count x ≤ 1) ∧
      (declared b).count received = b.countP Statement.unpacks ∧
      ((declared b).Nodup ↔ b.countP Statement.unpacks ≤ 1) := by
  intro b hb
  have hsub := s.introduced_sublist_binders p b hb
  have hothers : ∀ x ≠ received, (declared b).count x ≤ 1 := by
    intro x hx
    rw [count_declared_of_ne hx]
    exact List.nodup_iff_count_le_one.mp (apart.sublist hsub) x
  have hcount : (declared b).count received = b.countP Statement.unpacks :=
    count_declared_received fun hmem => hreceived (hsub.subset hmem)
  refine ⟨hothers, hcount, ?_⟩
  rw [List.nodup_iff_count_le_one, ← hcount]
  constructor
  · intro h
    exact h received
  · intro h x
    by_cases hx : x = received
    · rwa [hx]
    · exact hothers x hx

end Store

namespace Program

open Code

variable {source : String} {p : Program}

/-- The code is that of the block of the process over the store that is left behind. -/
theorem eq_of_generate {options : Option Options} {limit : Option Nat} {code : String}
    (h : (p.run (.generate options limit)).2.result = .ok (.text code)) :
    let outcome := (p.run (.generate options limit)).2
    code = wrap options p.calculi
      (render outcome.store.renderType (outcome.store.block outcome.process)) := by
  have hrun := Operation.run_generate options limit [] p.store p.process
  have hresult := (congrArg Operation.Outcome.result hrun).symm.trans h
  obtain ⟨-, -, hcode⟩ := Grammar.bind_eq_ok hresult
  split at hcode
  · cases hcode
    rfl
  · cases hcode

/-- The program with its occurrences resolved and different labels for different names. -/
def renumbered (p : Program) : Program := ((p.run .bind).1.run .makeUnique).1

section renumbered

theorem label_renumbered {n : Name} (hn : n ∈ p.bound.occurrences) :
    p.renumbered.store.label n = (p.held.makeUnique p.bound).store.label n := Store.label_retain _ hn

variable (parsed : Program.parse source = .ok p)

include parsed

theorem bound_held : p.held.Bound p.bound := (bound_of_parse parsed).retain

theorem injOn_label_renumbered : Set.InjOn p.renumbered.store.label {n | n ∈ p.bound.occurrences} := by
  have hbound := bound_held parsed
  intro n hn m hm h
  rw [label_renumbered hn, label_renumbered hm] at h
  exact Store.injOn_label_makeUnique hbound.live hbound.mutable hn hm h

theorem bound_renumbered : p.renumbered.bound = p.bound :=
  Process.bindIn_of_injOn (injOn_label_renumbered parsed) (fun _ hm => absurd hm List.not_mem_nil)
    fun _ hn => hn

theorem label_inferred_renumbered {n : Name} (hn : n ∈ p.bound.binders) :
    p.renumbered.inferred.store.label n = p.renumbered.store.label n := by
  have hretypes := p.renumbered.held.retypes_inferAndUnify p.renumbered.bound
  have hheld : n ∈ p.renumbered.bound.occurrences := by
    rw [bound_renumbered parsed]
    exact Process.binders_subset_occurrences _ hn
  rw [inferred, hretypes.label_eq, label_held hheld]

theorem nodup_binders_renumbered :
    (p.bound.binders.map p.renumbered.inferred.store.label).Nodup := by
  apply (bound_held parsed).nodup.map_on
  intro n hn m hm h
  rw [label_inferred_renumbered parsed hn, label_inferred_renumbered parsed hm] at h
  exact injOn_label_renumbered parsed (Process.binders_subset_occurrences _ hn)
    (Process.binders_subset_occurrences _ hm) h

theorem received_notMem_renumbered :
    received ∉ p.bound.binders.map p.renumbered.inferred.store.label := by
  have hbound := bound_held parsed
  intro hmem
  obtain ⟨n, hn, hlabel⟩ := List.mem_map.mp hmem
  have hocc := Process.binders_subset_occurrences _ hn
  rw [label_inferred_renumbered parsed hn, label_renumbered hocc,
    Store.label_makeUnique hbound.live hbound.mutable hocc] at hlabel
  have hmark : '_' ∈ (numbered (p.held.label n) (Store.number p.bound n)).toList := by
    simp [numbered]
  rw [hlabel] at hmark
  exact absurd hmark (by decide)

end renumbered

/-- In code for a program with different labels for different names, a block declares no identifier
again but the variable for a received structure, and declares that as often as it takes one apart. -/
theorem generate_declares (parsed : Program.parse source = .ok p) {options : Option Options}
    {limit : Option Nat} {code : String}
    (generated : (p.renumbered.run (.generate options limit)).2.result = .ok (.text code)) :
    let outcome := (p.renumbered.run (.generate options limit)).2
    let block := outcome.store.block outcome.process
    code = wrap options p.renumbered.calculi (render outcome.store.renderType block) ∧
      ∀ b ∈ blocks block, (∀ x ≠ received, (declared b).count x ≤ 1) ∧
        (declared b).count received = b.countP Statement.unpacks ∧
        ((declared b).Nodup ↔ b.countP Statement.unpacks ≤ 1) := by
  intro outcome block
  have hblock : block = p.renumbered.inferred.store.block p.bound := by
    rw [← bound_renumbered parsed]
    rfl
  refine ⟨eq_of_generate generated, ?_⟩
  rw [hblock]
  exact Store.declared_of_apart (nodup_binders_renumbered parsed) (received_notMem_renumbered parsed)

instance (result : Except Error Operation.Value) (code : String) :
    Decidable (result = .ok (.text code)) :=
  match result with
  | .ok (.text text) => decidable_of_iff (text = code) (by simp)
  | .ok .none | .ok (.flag _) | .ok (.count _) | .error _ => .isFalse nofun

/-- The block of a component and that of a loop take a structure apart each, and declare nothing again. -/
theorem generate_declares_apart :
    ∃ p code, Program.parse "(new a)(a(x,y).x(z).0 | !a(x,y).0)" = .ok p ∧
      (p.renumbered.run (.generate none none)).2.result = .ok (.text code) ∧
      let outcome := (p.renumbered.run (.generate none none)).2
      let block := outcome.store.block outcome.process
      code = wrap none p.renumbered.calculi (render outcome.store.renderType block) ∧
        (blocks block).map declared =
          [["a_0"], ["rcvd", "x_1", "y_2", "z_3"], ["rcvd", "x_4", "y_5"]] ∧
        ∀ b ∈ blocks block, (declared b).Nodup := by
  obtain ⟨p, parsed, generated, hdeclared, hunpacks⟩ :
      ∃ p, Program.parse "(new a)(a(x,y).x(z).0 | !a(x,y).0)" = .ok p ∧
        (p.renumbered.run (.generate none none)).2.result = .ok (.text
          ("a_0 := make(chan struct\x7be0 chan interface\x7b\x7d;e1 interface\x7b\x7d\x7d); " ++
            "go func()\x7b rcvd := <-a_0;x_1,y_2:=rcvd.e0,rcvd.e1;z_3 := <-x_1;/* end */ \x7d()\n" ++
            "for \x7b rcvd := <-a_0;x_4,y_5:=rcvd.e0,rcvd.e1;/* end */ \x7d;")) ∧
        let outcome := (p.renumbered.run (.generate none none)).2
        let block := outcome.store.block outcome.process
        (blocks block).map declared =
            [["a_0"], ["rcvd", "x_1", "y_2", "z_3"], ["rcvd", "x_4", "y_5"]] ∧
          ∀ b ∈ blocks block, b.countP Statement.unpacks ≤ 1 := by
    decide +kernel
  obtain ⟨hcode, hblocks⟩ := generate_declares parsed generated
  refine ⟨p, _, parsed, generated, hcode, hdeclared, fun b hb => ?_⟩
  obtain ⟨-, -, hnodup⟩ := hblocks b hb
  exact hnodup.mpr (hunpacks b hb)

/-- Two receives below each other declare the variable for the structure twice in their block. -/
theorem received_declared_twice :
    ∃ p, Program.parse "a(x,y).b(z,w).0" = .ok p ∧
      (p.renumbered.run (.generate none none)).2.result = .ok (.text
        "rcvd := <-a_0;x_1,y_2:=rcvd.e0,rcvd.e1;rcvd := <-b_3;z_4,w_5:=rcvd.e0,rcvd.e1;/* end */") ∧
      let outcome := (p.renumbered.run (.generate none none)).2
      ∃ b ∈ blocks (outcome.store.block outcome.process),
        declared b = ["rcvd", "x_1", "y_2", "rcvd", "z_4", "w_5"] ∧ ¬ (declared b).Nodup := by
  decide +kernel

end Program

end PiCalculus
