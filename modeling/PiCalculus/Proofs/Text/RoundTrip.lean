import Mathlib
import PiCalculus.Proofs.Text.Lexing
import PiCalculus.Proofs.Text.Parsing

/-! Reading what has been written. The text of a process has the tokens of a derivation that follows
the process, and this stands for the process with its compositions grouped as they are read. -/

namespace PiCalculus

namespace Process

variable {ν μ : Type}

/-- Compositions of two, grouped to the left, in the place of compositions of many. -/
@[grind =] def regroup : Process ν → Process ν
  | .nil => .nil
  | .send chan values => .send chan values
  | .receive chan vars body => .receive chan vars body.regroup
  | .par ps =>
    match ps.map regroup with
    | [] => .par []
    | p :: ps => ps.foldl (fun left right => .par [left, right]) p
  | .replicate body => .replicate body.regroup
  | .restrict name body => .restrict name body.regroup
termination_by p => sizeOf p

/-- Whether every composition has a component. -/
@[grind =] def Composed : Process ν → Prop
  | .nil | .send .. => True
  | .receive _ _ body | .replicate body | .restrict _ body => body.Composed
  | .par ps => ps ≠ [] ∧ ∀ p ∈ ps, p.Composed
termination_by p => sizeOf p

theorem map_foldl_par (f : ν → μ) (ps : List (Process ν)) (p : Process ν) :
    (ps.foldl (fun left right => par [left, right]) p).map f =
      (ps.map (map f)).foldl (fun left right => par [left, right]) (p.map f) := by
  induction ps generalizing p with
  | nil => rfl
  | cons q ps ih => simp [ih, map]

theorem composed_map (f : ν → μ) (p : Process ν) : (p.map f).Composed ↔ p.Composed := by
  induction p with
  | par ps ih =>
    rw [map, Composed, Composed, List.forall_mem_map, ne_eq, List.map_eq_nil_iff]
    exact and_congr_right fun _ => forall₂_congr ih
  | _ => simp_all [map, Composed]

theorem occurrences_restrictAll (ns : List ν) (p : Process ν) :
    (restrictAll ns p).occurrences = ns ++ p.occurrences := by
  induction ns with
  | nil => rfl
  | cons n ns ih =>
    rw [restrictAll, List.foldr_cons, occurrences, List.cons_append]
    exact congrArg (n :: ·) ih

/-- Whether the compositions are grouped as they are read. -/
def Grouped (p : Process ν) : Prop := p.Composed ∧ p.regroup = p

theorem grouped_restrictAll {ns : List ν} {p : Process ν} (h : p.Grouped) :
    (restrictAll ns p).Grouped := by
  induction ns with
  | nil => exact h
  | cons n ns ih =>
    refine ⟨?_, ?_⟩
    · rw [restrictAll, List.foldr_cons, Composed]
      exact ih.1
    · rw [restrictAll, List.foldr_cons, regroup]
      exact congrArg (restrict n) ih.2

end Process

namespace Grammar

/-- What is written of a terminal. -/
abbrev Word : TokenKind → Type := fun _ => String

def listed : List String → Names Word
  | [] => none
  | n :: ns => some ⟨n, ns.map ((",", ·))⟩

def bars : List (Atom Word) → Bars Word
  | [] => .none
  | a :: as => .more "|" a (bars as)

/-- The derivation of what is written of a process. Nothing derives an empty composition. -/
@[grind =] def tree : Process String → Atom Word
  | .nil => .nil "0"
  | .send chan values => .send chan "<" (listed values) ">"
  | .receive chan vars body => .receive chan "(" (listed vars) ")" "." (tree body)
  | .par ps =>
    match ps.map tree with
    | [] => .nil "0"
    | a :: as => .group "(" (.mk a (bars as)) ")"
  | .replicate body => .replicate "!" (tree body)
  | .restrict name body => .restrict "(" "new" ⟨⟨name, none⟩, []⟩ ")" (tree body)
termination_by p => sizeOf p

theorem elements_listed (ns : List String) : (listed ns).elements = ns := by
  cases ns with
  | nil => rfl
  | cons n ns =>
    simp only [listed, Names.elements, Separated.elements, List.map_map]
    exact congrArg (n :: ·) (List.map_id ns)

variable {ν : Type} (name : String → Option String → ν)

theorem denote_bars (as : List (Atom Word)) (left : Process ν) :
    (bars as).denote name left =
      (as.map (Atom.denote name)).foldl (fun left right => .par [left, right]) left := by
  induction as generalizing left with
  | nil => rfl
  | cons a as ih =>
    rw [bars, Bars.denote, ih]
    rfl

theorem denote_tree {p : Process String} (h : p.Composed) :
    (tree p).denote name = p.regroup.map (name · none) := by
  induction p with
  | nil => simp [tree, Atom.denote, Process.regroup, Process.map]
  | send chan values => simp [tree, Atom.denote, Process.regroup, Process.map, elements_listed]
  | receive chan vars body ih =>
    rw [Process.Composed] at h
    simp [tree, Atom.denote, Process.regroup, Process.map, elements_listed, ih h]
  | par ps ih =>
    rw [Process.Composed] at h
    have hps : (ps.map tree).map (Atom.denote name) =
        (ps.map Process.regroup).map (Process.map (name · none)) := by
      rw [List.map_map, List.map_map]
      exact List.map_congr_left fun p hp => ih p hp (h.2 p hp)
    obtain ⟨p, ps, rfl⟩ := List.exists_cons_of_ne_nil h.1
    rw [List.map_cons, List.map_cons, List.map_cons, List.map_cons, List.cons.injEq] at hps
    rw [tree, Process.regroup, List.map_cons, List.map_cons]
    simp only [Atom.denote, Composition.denote, denote_bars]
    rw [Process.map_foldl_par, hps.1, hps.2]
  | replicate body ih =>
    rw [Process.Composed] at h
    simp [tree, Atom.denote, Process.regroup, Process.map, ih h]
  | restrict n body ih =>
    rw [Process.Composed] at h
    simp [tree, Atom.denote, Process.regroup, Process.map, ih h, Process.restrictAll,
      Separated.elements, Binder.denote]

variable {rest : List Char} {ls : List (Leaf Word)}

theorem lexes_listed {ns : List String} (labels : ∀ n ∈ ns, IsIdentifier n) (h : Lexes rest ls)
    (hrest : EndsWord rest) :
    Lexes ((",".intercalate ns).toList ++ rest) ((listed ns).leaves ++ ls) := by
  cases ns with
  | nil => simpa [listed, Names.leaves] using h
  | cons n ns =>
    induction ns generalizing n with
    | nil =>
      rw [String.intercalate_singleton]
      exact h.identifier (labels n (by simp)) hrest
    | cons m ns ih =>
      rw [String.intercalate_cons_cons]
      have htail := ih m fun l hl => labels l (List.mem_cons_of_mem n hl)
      have hcomma := htail.symbol (c := ',') (k := .comma) rfl (by simp)
      have hhead := hcomma.identifier (labels n (by simp)) (by rw [endsWord_cons]; decide)
      simpa [listed, Names.leaves, Separated.leaves, moreLeaves, nameLeaves, leaf] using hhead

theorem lexes_bars {ps : List (Process String)} {p : Process String}
    (each : ∀ q ∈ p :: ps, ∀ {rest : List Char} {ls : List (Leaf Word)}, Lexes rest ls →
      EndsWord rest → Lexes (q.render.toList ++ rest) ((tree q).leaves ++ ls))
    (h : Lexes rest ls) (hrest : EndsWord rest) :
    Lexes ((" | ".intercalate ((p :: ps).map Process.render)).toList ++ rest)
      ((Composition.mk (tree p) (bars (ps.map tree))).leaves ++ ls) := by
  induction ps generalizing p with
  | nil => simpa [bars, Composition.leaves, Bars.leaves] using each p (by simp) h hrest
  | cons q ps ih =>
    have htail := ih (p := q) fun r hr => each r (List.mem_cons_of_mem p hr)
    have hbar := (htail.blank.symbol (c := '|') (k := .bar) rfl (by simp)).blank
    have hhead := each p (by simp) hbar (by rw [endsWord_cons]; decide)
    simpa [String.intercalate_cons_cons, bars, Composition.leaves, Bars.leaves, leaf] using hhead

theorem lexes_render {p : Process String} (labels : ∀ l ∈ p.occurrences, IsIdentifier l)
    (composed : p.Composed) (h : Lexes rest ls) (hrest : EndsWord rest) :
    Lexes (p.render.toList ++ rest) ((tree p).leaves ++ ls) := by
  induction p generalizing rest ls with
  | nil =>
    have hzero : Lexes ('0' :: [] ++ rest) (⟨.nil, String.ofList ['0']⟩ :: ls) :=
      h.word (by decide) (by simp) rfl hrest
    simpa [Process.render, tree, Atom.leaves, leaf] using hzero
  | send chan values =>
    rw [Process.occurrences, List.forall_mem_cons] at labels
    have hgreater := h.symbol (c := '>') (k := .greater) rfl (by simp)
    have hvalues := lexes_listed labels.2 hgreater (by rw [endsWord_cons]; decide)
    have hless := hvalues.symbol (c := '<') (k := .less) rfl (by simp)
    have hchan := hless.identifier labels.1 (by rw [endsWord_cons]; decide)
    simpa [Process.render, tree, Atom.leaves, leaf] using hchan
  | receive chan vars body ih =>
    simp only [Process.occurrences, List.forall_mem_cons, List.mem_append, or_imp,
      forall_and] at labels
    rw [Process.Composed] at composed
    have hbody := ih labels.2.2 composed h hrest
    have hdot := hbody.symbol (c := '.') (k := .dot) rfl (by simp)
    have hright := hdot.symbol (c := ')') (k := .rightParen) rfl (by simp)
    have hvars := lexes_listed labels.2.1 hright (by rw [endsWord_cons]; decide)
    have hleft := hvars.symbol (c := '(') (k := .leftParen) rfl (by simp)
    have hchan := hleft.identifier labels.1 (by rw [endsWord_cons]; decide)
    simpa [Process.render, tree, Atom.leaves, leaf] using hchan
  | par ps ih =>
    rw [Process.occurrences] at labels
    rw [Process.Composed] at composed
    have each : ∀ q ∈ ps, ∀ {rest : List Char} {ls : List (Leaf Word)}, Lexes rest ls →
        EndsWord rest → Lexes (q.render.toList ++ rest) ((tree q).leaves ++ ls) :=
      fun q hq _ _ => ih q hq (fun l hl => labels l (List.mem_flatMap.mpr ⟨q, hq, hl⟩))
        (composed.2 q hq)
    obtain ⟨p, ps, rfl⟩ := List.exists_cons_of_ne_nil composed.1
    have hright := h.symbol (c := ')') (k := .rightParen) rfl (by simp)
    have hinside := lexes_bars each hright (by rw [endsWord_cons]; decide)
    have hleft := hinside.symbol (c := '(') (k := .leftParen) rfl (by simp)
    simpa [Process.render, tree, Atom.leaves, leaf] using hleft
  | replicate body ih =>
    rw [Process.occurrences] at labels
    rw [Process.Composed] at composed
    have hbang := (ih labels composed h hrest).symbol (c := '!') (k := .bang) rfl (by simp)
    simpa [Process.render, tree, Atom.leaves, leaf] using hbang
  | restrict n body ih =>
    rw [Process.occurrences, List.forall_mem_cons] at labels
    rw [Process.Composed] at composed
    have hbody := ih labels.2 composed h hrest
    have hright := hbody.symbol (c := ')') (k := .rightParen) rfl (by simp)
    have hname := hright.identifier labels.1 (by rw [endsWord_cons]; decide)
    -- The keyword ends at the blank, without which it would run into the restricted name.
    have hnew : Lexes ('n' :: ['e', 'w'] ++ ' ' :: _) (⟨.new, String.ofList ['n', 'e', 'w']⟩ :: _) :=
      hname.blank.word (by decide) (List.all_eq_true.mp (by decide)) rfl
        (by rw [endsWord_cons]; decide)
    have hleft := hnew.symbol (c := '(') (k := .leftParen) rfl (by simp)
    simpa [Process.render, tree, Atom.leaves, leaf, Separated.leaves, moreLeaves,
      Binder.leaves] using hleft

section denote

variable {T : TokenKind → Type} {ν : Type} (name : T .identifier → Option (T .identifier) → ν)

mutual

theorem Atom.grouped (a : Atom T) : (a.denote name).Grouped := by
  cases a with
  | nil zero => simp [Atom.denote, Process.Grouped, Process.Composed, Process.regroup]
  | replicate bang body =>
    have h := Atom.grouped body
    rw [Process.Grouped] at h ⊢
    rwa [Atom.denote, Process.Composed, Process.regroup, Process.replicate.injEq]
  | restrict left new binders right body =>
    rw [Atom.denote]
    exact Process.grouped_restrictAll (Atom.grouped body)
  | send chan less values greater =>
    simp [Atom.denote, Process.Grouped, Process.Composed, Process.regroup]
  | receive chan left vars right dot body =>
    have h := Atom.grouped body
    rw [Process.Grouped] at h ⊢
    rw [Atom.denote, Process.Composed, Process.regroup]
    exact ⟨h.1, by rw [h.2]⟩
  | group left inside right =>
    rw [Atom.denote]
    exact Composition.grouped inside

theorem Composition.grouped (c : Composition T) : (c.denote name).Grouped := by
  obtain ⟨first, more⟩ := c
  rw [Composition.denote]
  exact Bars.grouped more (Atom.grouped first)

theorem Bars.grouped (c : Bars T) {left : Process ν} (h : left.Grouped) :
    (c.denote name left).Grouped := by
  cases c with
  | none => exact h
  | more bar next rest =>
    have hnext := Atom.grouped next
    rw [Bars.denote]
    refine Bars.grouped rest ⟨?_, ?_⟩
    · simp [Process.Composed, h.1, hnext.1]
    · simp [Process.regroup, h.2, hnext.2]

end

theorem subset_leaves {α : Type} {each : α → List (Leaf T)} {l : Separated T α} {a : α}
    (ha : a ∈ l.elements) : each a ⊆ l.leaves each := by
  obtain ⟨first, more⟩ := l
  rw [Separated.leaves]
  rcases List.mem_cons.mp ha with rfl | ha
  · exact List.subset_append_left _ _
  · obtain ⟨m, hm, rfl⟩ := List.mem_map.mp ha
    intro x hx
    exact List.mem_append_right _ (List.mem_flatMap.mpr ⟨m, hm, List.mem_cons_of_mem _ hx⟩)

theorem leaf_mem_names {ns : Names T} {t : T .identifier} (ht : t ∈ ns.elements) :
    leaf t ∈ ns.leaves := by
  cases ns with
  | none => cases ht
  | some l =>
    have hsub : nameLeaves t ⊆ l.leaves nameLeaves := subset_leaves ht
    exact hsub (List.mem_singleton_self _)

mutual

theorem Atom.mem_occurrences_denote (a : Atom T) {n : ν} (hn : n ∈ (a.denote name).occurrences) :
    ∃ t hint, n = name t hint ∧ leaf t ∈ a.leaves := by
  cases a with
  | nil zero => simp [Atom.denote, Process.occurrences] at hn
  | replicate bang body =>
    rw [Atom.denote, Process.occurrences] at hn
    obtain ⟨t, hint, rfl, ht⟩ := Atom.mem_occurrences_denote body hn
    exact ⟨t, hint, rfl, List.mem_cons_of_mem _ ht⟩
  | restrict left new binders right body =>
    rw [Atom.denote, Process.occurrences_restrictAll, List.mem_append] at hn
    rw [Atom.leaves]
    rcases hn with hn | hn
    · obtain ⟨b, hb, rfl⟩ := List.mem_map.mp hn
      have hname : leaf b.name ∈ b.leaves := by
        obtain ⟨n, _ | ⟨colon, hint⟩⟩ := b <;> exact List.mem_cons_self
      have hleaf : leaf b.name ∈ binders.leaves Binder.leaves := subset_leaves hb hname
      exact ⟨b.name, b.hint.map (·.2), rfl, by simp [hleaf]⟩
    · obtain ⟨t, hint, rfl, ht⟩ := Atom.mem_occurrences_denote body hn
      exact ⟨t, hint, rfl, by simp [ht]⟩
  | send chan less values greater =>
    rw [Atom.denote, Process.occurrences, List.mem_cons] at hn
    rw [Atom.leaves]
    rcases hn with rfl | hn
    · exact ⟨chan, none, rfl, by simp⟩
    · obtain ⟨t, ht, rfl⟩ := List.mem_map.mp hn
      exact ⟨t, none, rfl, by simp [leaf_mem_names ht]⟩
  | receive chan left vars right dot body =>
    rw [Atom.denote, Process.occurrences, List.mem_cons, List.mem_append] at hn
    rw [Atom.leaves]
    rcases hn with rfl | hn | hn
    · exact ⟨chan, none, rfl, by simp⟩
    · obtain ⟨t, ht, rfl⟩ := List.mem_map.mp hn
      exact ⟨t, none, rfl, by simp [leaf_mem_names ht]⟩
    · obtain ⟨t, hint, rfl, ht⟩ := Atom.mem_occurrences_denote body hn
      exact ⟨t, hint, rfl, by simp [ht]⟩
  | group left inside right =>
    rw [Atom.denote] at hn
    obtain ⟨t, hint, rfl, ht⟩ := Composition.mem_occurrences_denote inside hn
    exact ⟨t, hint, rfl, by simp [Atom.leaves, ht]⟩

theorem Composition.mem_occurrences_denote (c : Composition T) {n : ν}
    (hn : n ∈ (c.denote name).occurrences) : ∃ t hint, n = name t hint ∧ leaf t ∈ c.leaves := by
  obtain ⟨first, more⟩ := c
  rw [Composition.leaves]
  rcases Bars.mem_occurrences_denote more hn with hn | ⟨t, hint, rfl, ht⟩
  · obtain ⟨t, hint, rfl, ht⟩ := Atom.mem_occurrences_denote first hn
    exact ⟨t, hint, rfl, List.mem_append_left _ ht⟩
  · exact ⟨t, hint, rfl, List.mem_append_right _ ht⟩

theorem Bars.mem_occurrences_denote (c : Bars T) {left : Process ν} {n : ν}
    (hn : n ∈ (c.denote name left).occurrences) :
    n ∈ left.occurrences ∨ ∃ t hint, n = name t hint ∧ leaf t ∈ c.leaves := by
  cases c with
  | none => exact .inl hn
  | more bar next rest =>
    rw [Bars.leaves]
    rcases Bars.mem_occurrences_denote rest hn with hn | ⟨t, hint, rfl, ht⟩
    · simp only [Process.occurrences, List.flatMap_cons, List.flatMap_nil, List.append_nil,
        List.mem_append] at hn
      refine hn.imp_right fun hn => ?_
      obtain ⟨t, hint, rfl, ht⟩ := Atom.mem_occurrences_denote next hn
      exact ⟨t, hint, rfl, by simp [ht]⟩
    · exact .inr ⟨t, hint, rfl, by simp [ht]⟩

end

end denote

def word (k : TokenKind) (t : Terminal k) : Word k := t.val.raw

/-- Tokens are derived as what is written of them. -/
theorem exists_map_word_eq {ts : List Token} (c : Composition Word)
    (h : ts.map lexeme = c.leaves) :
    ∃ c' : Composition Terminal, c'.tokens = ts ∧ c'.map word = c := by
  have hleaves : (ts.map fun t => (⟨t.kind, t, rfl⟩ : Leaf Terminal)).map (Leaf.map word) =
      c.leaves := by
    rw [List.map_map, ← h]
    rfl
  obtain ⟨c', hc', hmap⟩ := Composition.exists_map_eq word _ hleaves
  refine ⟨c', ?_, hmap⟩
  rw [Composition.tokens, hc', List.map_map]
  exact List.map_id _

/-- What is written of a process is read with its derivation. -/
theorem exists_map_word_eq_tree {p : Process String} (labels : ∀ l ∈ p.occurrences, IsIdentifier l)
    (composed : p.Composed) :
    ∃ c : Composition Terminal, c.tokens = tokens p.render ∧ c.map word = .mk (tree p) .none := by
  have hlexes := lexes_render labels composed .nil (by simp [EndsWord])
  rw [List.append_nil, List.append_nil] at hlexes
  refine exists_map_word_eq _ ?_
  rw [Composition.leaves, Bars.leaves, List.append_nil]
  exact hlexes .origin

end Grammar

namespace Program

/-- What is known of the names of a process apart from their places. -/
def announced (p : Program) : Process (String × Option String × Ty Name) :=
  p.process.map fun n => (p.store.label n, p.store.hint n, p.store.type n)

/-- What is known of the names of what is read is in the words that are written. -/
theorem map_load {α : Type} (c : Grammar.Composition Grammar.Terminal) (known : Option Entry → α)
    (words : String → Option String → α)
    (h : ∀ n hint, known (some (Grammar.written n hint)) =
      words n.val.raw (hint.map fun t => t.val.raw)) :
    (Store.empty.load (c.denote Grammar.occurrence)).1.map
        (fun n => known ((Store.empty.load (c.denote Grammar.occurrence)).2.get? n)) =
      (c.map Grammar.word).denote words := by
  have hentries := congrArg (Process.map known) (map_get?_load c)
  rw [Process.map_map, Grammar.Composition.map_denote] at hentries
  rw [Grammar.Composition.denote_map]
  refine hentries.trans ?_
  congr 1
  funext n hint
  exact h n hint

theorem announced_load (c : Grammar.Composition Grammar.Terminal) :
    announced ⟨(Store.empty.load (c.denote Grammar.occurrence)).1,
        (Store.empty.load (c.denote Grammar.occurrence)).2⟩ =
      (c.map Grammar.word).denote fun l hint => (l, hint, (hint.map Ty.base).getD .untyped) := by
  let known (e : Option Entry) : String × Option String × Ty Name :=
    ((e.map (·.label)).getD "", e.bind (·.hint), (e.map (·.type)).getD .untyped)
  exact map_load c known _ fun _ hint => by cases hint <;> rfl

theorem map_label_load (c : Grammar.Composition Grammar.Terminal) :
    (Store.empty.load (c.denote Grammar.occurrence)).1.map
        (Store.empty.load (c.denote Grammar.occurrence)).2.label =
      c.denote fun n _ => n.val.raw := by
  have h := congrArg (Process.map Prod.fst) (announced_load c)
  rw [announced, Process.map_map, Grammar.Composition.denote_map,
    Grammar.Composition.map_denote] at h
  exact h

theorem exists_parse_calculi {s : Store} {p : Process Name}
    (labels : ∀ n ∈ p.occurrences, IsIdentifier (s.label n)) (composed : p.Composed) :
    ∃ q, Program.parse (s.calculi p) = .ok q ∧
      announced q = (p.map s.label).regroup.map fun l => (l, none, .untyped) := by
  have hcomposed := (Process.composed_map s.label p).mpr composed
  have hlabels : ∀ l ∈ (p.map s.label).occurrences, IsIdentifier l := by
    rw [Process.occurrences_map, List.forall_mem_map]
    exact labels
  obtain ⟨c, hc, hmap⟩ := Grammar.exists_map_word_eq_tree hlabels hcomposed
  refine ⟨_, parse_eq_ok_iff.mpr ⟨c, hc, rfl⟩, ?_⟩
  rw [announced_load, hmap, Grammar.Composition.denote, Grammar.Bars.denote,
    Grammar.denote_tree _ hcomposed]
  rfl

/-- What is read has identifiers for labels, and compositions that are grouped already. -/
theorem of_parse {source : String} {p : Program} (h : Program.parse source = .ok p) :
    (∀ n ∈ p.process.occurrences, IsIdentifier (p.store.label n)) ∧
      (p.process.map p.store.label).Grouped := by
  obtain ⟨c, hc, rfl⟩ := parse_eq_ok_iff.mp h
  dsimp only
  refine ⟨fun n hn => ?_, by rw [map_label_load]; exact Grammar.Composition.grouped _ c⟩
  have hlabel := List.mem_map_of_mem (f := (Store.empty.load (c.denote Grammar.occurrence)).2.label)
    hn
  rw [← Process.occurrences_map, map_label_load] at hlabel
  obtain ⟨t, -, heq, ht⟩ := Grammar.Composition.mem_occurrences_denote _ c hlabel
  have htoken : t.val ∈ tokens source := by
    rw [← hc]
    exact List.mem_map_of_mem ht
  rw [heq]
  exact isIdentifier_of_mem_scan htoken t.property

theorem calculi_round_trip :
    (∀ (s : Store) (p : Process Name), (∀ n ∈ p.occurrences, IsIdentifier (s.label n)) →
      p.Composed → ∃ q, Program.parse (s.calculi p) = .ok q ∧
        announced q = (p.map s.label).regroup.map fun l => (l, none, .untyped)) ∧
    ∀ (source : String) (p : Program), Program.parse source = .ok p →
      ∃ q, Program.parse p.calculi = .ok q ∧
        q.process.map q.store.label = p.process.map p.store.label ∧ q.calculi = p.calculi := by
  refine ⟨fun s p labels composed => exists_parse_calculi labels composed, fun source p hp => ?_⟩
  obtain ⟨labels, composed, hregroup⟩ := of_parse hp
  obtain ⟨q, hq, hannounced⟩ :=
    exists_parse_calculi labels ((Process.composed_map p.store.label p.process).mp composed)
  have hlabel : q.process.map q.store.label = p.process.map p.store.label := by
    have h := congrArg (Process.map Prod.fst) hannounced
    rw [announced, Process.map_map, Process.map_map, hregroup] at h
    exact h.trans (Process.map_id _)
  refine ⟨q, hq, hlabel, ?_⟩
  rw [calculi, calculi, Store.calculi, Store.calculi, hlabel]

theorem calculi_round_trip_wide :
    (∃ q, Program.parse (Store.calculi ⟨#[some (.ordinary "a")]⟩
        (.par [.send ⟨0⟩ [], .nil, .par [.replicate .nil]])) = .ok q ∧
      announced q =
        .par [.par [.send ("a", none, .untyped) [], .nil], .replicate .nil]) ∧
    ∃ p q, Program.parse "(new a:T)(a<b> | 0 | !0)" = .ok p ∧ Program.parse p.calculi = .ok q ∧
      q.process.map q.store.label = p.process.map p.store.label ∧ q.calculi = p.calculi := by
  have hlabel : IsIdentifier "a" := ⟨'a', [], by decide, by decide, by simp, by decide⟩
  constructor
  · obtain ⟨q, hq, hannounced⟩ := calculi_round_trip.1 ⟨#[some (.ordinary "a")]⟩
      (.par [.send ⟨0⟩ [], .nil, .par [.replicate .nil]])
      (by simpa [Process.occurrences, Store.label, Store.get?, Entry.ordinary] using hlabel)
      (by simp [Process.Composed])
    refine ⟨q, hq, hannounced.trans ?_⟩
    simp [Process.map, Process.regroup, Store.label, Store.get?, Entry.ordinary]
  · have hparse : (Program.parse "(new a:T)(a<b> | 0 | !0)").toBool = true := by decide +kernel
    cases hp : Program.parse "(new a:T)(a<b> | 0 | !0)" with
    | error e =>
      rw [hp] at hparse
      cases hparse
    | ok p =>
      obtain ⟨q, hq, hlabel, hcalculi⟩ := calculi_round_trip.2 _ p hp
      exact ⟨p, q, rfl, hq, hlabel, hcalculi⟩

end Program

end PiCalculus
