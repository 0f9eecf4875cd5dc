import Mathlib
import PiCalculus.Proofs.Binding.Resolution
import PiCalculus.Proofs.Store.Comparing
import PiCalculus.Proofs.Text.Layout
import PiCalculus.Proofs.Text.RoundTrip
import PiCalculus.Proofs.Typing.Assignments
import PiCalculus.Proofs.Typing.Checking

/-! Which words of a text name something. An identifier that does not stand behind a colon is one
occurrence of a name, and one behind a colon is the hint of the name before it. Names keep the places
of their words, so what a check tells of a channel points at a word of the text. -/

namespace PiCalculus

/-- The word behind a colon that stands next. -/
def hintAhead : List Token → Option String
  | colon :: t :: _ => if colon.kind = .colon then some t.raw else none
  | _ => none

/-- The identifiers that do not stand directly behind a colon, each with the word behind a colon that
follows. The flag tells whether the first of the tokens stands behind a colon. -/
def namings : Bool → List Token → List Occurrence
  | _, [] => []
  | behindColon, t :: ts =>
    let more := namings (t.kind = .colon) ts
    if t.kind = .identifier ∧ behindColon = false then ⟨t.raw, hintAhead ts, t.span⟩ :: more
    else more

theorem exists_token_of_mem_namings {behindColon : Bool} {ts : List Token} {o : Occurrence}
    (h : o ∈ namings behindColon ts) : ∃ t ∈ ts, t.raw = o.label ∧ t.span = o.span := by
  induction ts generalizing behindColon with
  | nil => cases h
  | cons t ts ih =>
    rw [namings] at h
    have later : ∀ {flag}, o ∈ namings flag ts → ∃ u ∈ t :: ts, u.raw = o.label ∧ u.span = o.span := by
      intro flag hmem
      obtain ⟨u, hu, heq⟩ := ih hmem
      exact ⟨u, List.mem_cons_of_mem _ hu, heq⟩
    split at h
    · rcases List.mem_cons.mp h with rfl | hmem
      · exact ⟨t, List.mem_cons_self, rfl, rfl⟩
      · exact later hmem
    · exact later h

namespace Grammar

section namings

variable {rest : List Token}

theorem hintAhead_of_ends (h : Ends [.colon] rest) : hintAhead rest = none := by
  match rest with
  | [] => rfl
  | [_] => rfl
  | t :: u :: rest =>
    rw [ends_cons, List.mem_singleton] at h
    exact if_neg h

theorem namings_terminal {k : TokenKind} (t : Terminal k) (hk : k ∉ [.identifier, .colon])
    (ts : List Token) : namings false (t.val :: ts) = namings false ts := by
  rw [← t.property] at hk
  simp_all [namings]

theorem namings_name (n : Terminal .identifier) (h : Ends [.colon] rest) :
    namings false (n.val :: rest) = occurrence n none :: namings false rest := by
  simp [namings, n.property, hintAhead_of_ends h, occurrence, Parser.occurrence]

theorem namings_binder (b : Binder Terminal) (h : Ends [.colon] rest) :
    namings false (b.leaves.map Leaf.token ++ rest) =
      b.denote occurrence :: namings false rest := by
  obtain ⟨name, _ | ⟨colon, hint⟩⟩ := b
  · exact namings_name name h
  · simp [Binder.leaves, Binder.denote, namings, hintAhead, name.property, colon.property,
      hint.property, occurrence, Parser.occurrence]

variable {α : Type} {each : α → List (Leaf Terminal)} {name : α → Occurrence}

theorem namings_moreLeaves
    (heach : ∀ (a : α) {rest : List Token}, Ends [.colon] rest →
      namings false ((each a).map Leaf.token ++ rest) = name a :: namings false rest)
    (more : List (Terminal .comma × α)) (h : Ends [.comma, .colon] rest) :
    namings false ((moreLeaves each more).map Leaf.token ++ rest) =
      more.map (fun m => name m.2) ++ namings false rest := by
  induction more with
  | nil => rfl
  | cons m more ih =>
    obtain ⟨comma, a⟩ := m
    have hstep : (moreLeaves each ((comma, a) :: more)).map Leaf.token ++ rest =
        comma.val :: ((each a).map Leaf.token ++ ((moreLeaves each more).map Leaf.token ++ rest)) := by
      simp [moreLeaves]
    rw [hstep, namings_terminal comma (by decide), heach a (ends_moreLeaves more h), ih]
    rfl

theorem namings_separated
    (heach : ∀ (a : α) {rest : List Token}, Ends [.colon] rest →
      namings false ((each a).map Leaf.token ++ rest) = name a :: namings false rest)
    (l : Separated Terminal α) (h : Ends [.comma, .colon] rest) :
    namings false ((l.leaves each).map Leaf.token ++ rest) =
      l.elements.map name ++ namings false rest := by
  obtain ⟨first, more⟩ := l
  rw [Separated.leaves, List.map_append, List.append_assoc, heach first (ends_moreLeaves more h),
    namings_moreLeaves heach more h, Separated.elements, List.map_cons, List.map_map]
  rfl

theorem namings_names (ns : Names Terminal) (h : Ends [.comma, .colon] rest) :
    namings false (ns.leaves.map Leaf.token ++ rest) =
      ns.elements.map (occurrence · none) ++ namings false rest := by
  cases ns with
  | none => rfl
  | some l =>
    have heach : ∀ (n : Terminal .identifier) {rest : List Token}, Ends [.colon] rest →
        namings false ((nameLeaves n).map Leaf.token ++ rest) = occurrence n none :: namings false rest :=
      fun n _ hrest => namings_name n hrest
    exact namings_separated heach l h

end namings

mutual

theorem Atom.namings_eq (a : Atom Terminal) (rest : List Token) :
    namings false (a.leaves.map Leaf.token ++ rest) =
      (a.denote occurrence).occurrences ++ namings false rest := by
  cases a with
  | nil zero =>
    rw [Atom.denote, Process.occurrences]
    exact namings_terminal zero (by decide) rest
  | replicate bang body =>
    rw [Atom.leaves, List.map_cons, List.cons_append, token_leaf, namings_terminal bang (by decide),
      Atom.namings_eq body, Atom.denote, Process.occurrences]
  | restrict left new binders right body =>
    have hends : Ends [.comma, .colon] (right.val :: (body.leaves.map Leaf.token ++ rest)) := by
      simp [ends_cons, right.property]
    have hts : (Atom.restrict left new binders right body).leaves.map Leaf.token ++ rest =
        left.val :: new.val :: ((binders.leaves Binder.leaves).map Leaf.token ++
          right.val :: (body.leaves.map Leaf.token ++ rest)) := by
      simp [Atom.leaves]
    rw [hts, namings_terminal left (by decide), namings_terminal new (by decide),
      namings_separated (fun b _ hrest => namings_binder b hrest) binders hends,
      namings_terminal right (by decide), Atom.namings_eq body, Atom.denote, Process.occurrences_restrictAll,
      List.append_assoc]
  | send chan less values greater =>
    have hends : Ends [.comma, .colon] (greater.val :: rest) := by
      simp [ends_cons, greater.property]
    have hts : (Atom.send chan less values greater).leaves.map Leaf.token ++ rest =
        chan.val :: less.val :: (values.leaves.map Leaf.token ++ greater.val :: rest) := by
      simp [Atom.leaves]
    rw [hts, namings_name chan (by simp [ends_cons, less.property]), namings_terminal less (by decide),
      namings_names values hends, namings_terminal greater (by decide), Atom.denote, Process.occurrences]
    rfl
  | receive chan left vars right dot body =>
    have hends : Ends [.comma, .colon]
        (right.val :: dot.val :: (body.leaves.map Leaf.token ++ rest)) := by
      simp [ends_cons, right.property]
    have hts : (Atom.receive chan left vars right dot body).leaves.map Leaf.token ++ rest =
        chan.val :: left.val :: (vars.leaves.map Leaf.token ++
          right.val :: dot.val :: (body.leaves.map Leaf.token ++ rest)) := by
      simp [Atom.leaves]
    rw [hts, namings_name chan (by simp [ends_cons, left.property]), namings_terminal left (by decide),
      namings_names vars hends, namings_terminal right (by decide), namings_terminal dot (by decide),
      Atom.namings_eq body, Atom.denote, Process.occurrences, List.cons_append, List.append_assoc]
  | group left inside right =>
    have hts : (Atom.group left inside right).leaves.map Leaf.token ++ rest =
        left.val :: (inside.leaves.map Leaf.token ++ right.val :: rest) := by
      simp [Atom.leaves]
    rw [hts, namings_terminal left (by decide), Composition.namings_eq inside, namings_terminal right (by decide),
      Atom.denote]

theorem Composition.namings_eq (c : Composition Terminal) (rest : List Token) :
    namings false (c.leaves.map Leaf.token ++ rest) =
      (c.denote occurrence).occurrences ++ namings false rest := by
  obtain ⟨first, more⟩ := c
  rw [Composition.leaves, List.map_append, List.append_assoc, Atom.namings_eq first,
    Bars.namings_eq more, Composition.denote]

theorem Bars.namings_eq (c : Bars Terminal) (left : Process Occurrence) (rest : List Token) :
    left.occurrences ++ namings false (c.leaves.map Leaf.token ++ rest) =
      (c.denote occurrence left).occurrences ++ namings false rest := by
  cases c with
  | none => rfl
  | more bar next more =>
    have hpair : (Process.par [left, next.denote occurrence]).occurrences =
        left.occurrences ++ (next.denote occurrence).occurrences := by
      simp [Process.occurrences]
    rw [Bars.leaves, List.map_cons, List.map_append, List.cons_append, List.append_assoc, token_leaf,
      namings_terminal bar (by decide), Atom.namings_eq next, Bars.denote, ← Bars.namings_eq more, hpair,
      List.append_assoc]

end

/-- The occurrences of what is derived are the words that name something, in their order. -/
theorem Composition.namings_tokens (c : Composition Terminal) :
    namings false c.tokens = (c.denote occurrence).occurrences := by
  have h := c.namings_eq []
  rwa [List.append_nil, namings, List.append_nil] at h

end Grammar

namespace Store

variable {s u : Store} {n : Name}

theorem Retypes.span_eq (h : s.Retypes u) (n : Name) : u.span n = s.span n := by
  obtain ⟨type, htype⟩ := h n
  rw [span, span, htype, Option.bind_map]
  rfl

end Store

namespace Program

variable {source : String} {p : Program}

theorem namings_of_parse (parsed : Program.parse source = .ok p) :
    p.process.occurrences.map p.store.get? =
      (namings false (tokens source)).map fun o => some o.entry := by
  obtain ⟨c, hc, rfl⟩ := parse_eq_ok_iff.mp parsed
  have hload := congrArg Process.occurrences (Store.empty.map_get?_load (c.denote Grammar.occurrence))
  rw [Process.occurrences_map, Process.occurrences_map] at hload
  rw [← hc, c.namings_tokens]
  exact hload

/-- The word of an occurrence stands in the text where the name tells. -/
theorem exists_place_of_mem (parsed : Program.parse source = .ok p) {n : Name}
    (hn : n ∈ p.process.occurrences) :
    ∃ span before behind, p.store.span n = some span ∧
      before ++ (p.store.label n).toList ++ behind = source.toList ∧
      span.start = .behind before ∧ span.stop = .behind (before ++ (p.store.label n).toList) := by
  have hentry : p.store.get? n ∈ (namings false (tokens source)).map fun o => some o.entry := by
    rw [← namings_of_parse parsed]
    exact List.mem_map_of_mem hn
  obtain ⟨o, ho, heq⟩ := List.mem_map.mp hentry
  obtain ⟨t, ht, hraw, hspan⟩ := exists_token_of_mem_namings ho
  have hlabel : p.store.label n = t.raw := by
    rw [Store.label, ← heq, hraw]
    cases o with
    | mk label hint span => cases hint <;> rfl
  have hplace : p.store.span n = some t.span := by
    rw [Store.span, ← heq, hspan]
    cases o with
    | mk label hint span => cases hint <;> rfl
  obtain ⟨before, behind, htext, hstands⟩ := exists_stands_of_mem_tokens ht
  refine ⟨t.span, before, behind, hplace, ?_, hstands.start, ?_⟩
  · rw [hlabel, List.append_assoc, htext]
  · rw [hlabel, hstands.stop_eq]

/-- A conflict is told with the label and the place of a name of the process. -/
theorem exists_occurrence_of_check {e : TypeError}
    (h : (p.run .check).2.result = .error (.type e)) :
    ∃ n ∈ p.process.occurrences, e.chan = p.store.label n ∧ e.span = p.store.span n := by
  obtain ⟨t, -, hunify⟩ := exists_unify_of_check h
  obtain ⟨chan, vars, hreceive, hchan, hspan, -⟩ := Store.of_unify_typeError hunify
  have hretypes : p.held.Retypes (p.run .check).2.store := p.held.retypes_inferAndUnify p.bound
  have hbound : chan ∈ p.bound.occurrences := (Process.mem_occurrences_of_receives hreceive).1
  have hocc : chan ∈ p.process.occurrences :=
    (Process.mem_occurrences_bindIn hbound).resolve_left List.not_mem_nil
  refine ⟨chan, hocc, ?_, ?_⟩
  · rw [hchan, hretypes.label_eq, label_held hbound]
  · rw [hspan, hretypes.span_eq, Store.span, held_get? hbound, Store.span]

/-- A program has an occurrence for each word that names something, in the order of the text and each
with a name of its own, and a conflict that a check tells of is marked at a word that is its channel. -/
theorem parse_named (parsed : Program.parse source = .ok p) :
    p.process.occurrences.Nodup ∧
      (p.process.occurrences.map fun n => (p.store.label n, p.store.hint n, p.store.span n)) =
        (namings false (tokens source)).map (fun o => (o.label, o.hint, some o.span)) ∧
      ∀ e : TypeError, (p.run .check).2.result = .error (.type e) →
        ∃ span before behind, e.span = some span ∧
          before ++ e.chan.toList ++ behind = source.toList ∧
          span.start = .behind before ∧ span.stop = .behind (before ++ e.chan.toList) := by
  refine ⟨?_, ?_, fun e he => ?_⟩
  · obtain ⟨written, -, rfl⟩ := parse_eq_ok_iff_all.mp parsed
    exact Store.empty.load_occurrences_nodup written
  · have h := congrArg (List.map fun e : Option Entry =>
      ((e.map (·.label)).getD "", e.bind (·.hint), e.bind (·.span))) (namings_of_parse parsed)
    rw [List.map_map, List.map_map] at h
    refine h.trans (List.map_congr_left fun o _ => ?_)
    obtain ⟨label, hint, span⟩ := o
    cases hint <;> rfl
  · obtain ⟨n, hn, hchan, hspan⟩ := exists_occurrence_of_check he
    obtain ⟨span, before, behind, hplace⟩ := exists_place_of_mem parsed hn
    rw [hchan, hspan]
    exact ⟨span, before, behind, hplace⟩

instance decidableTypeError (result : Except Error Operation.Value) (P : TypeError → Prop)
    [DecidablePred P] : Decidable (∃ e, result = .error (.type e) ∧ P e) :=
  match result with
  | .error (.type e) => decidable_of_iff (P e) (by simp)
  | .ok _ | .error (.immutableName _) | .error (.unevenSubstitution ..) | .error .format =>
    .isFalse (by simp)

/-- The variable is used as a channel, but what is sent has the type that is announced for it. The word
behind the colon names nothing. -/
theorem parse_named_conflict :
    ∃ p, Program.parse "(new a,b:int)(a<b> | a(x).x<>)" = .ok p ∧
      p.process.occurrences.Nodup ∧
      p.process.occurrences.map p.store.label = ["a", "b", "a", "b", "a", "x", "x"] ∧
      p.process.occurrences.map p.store.hint = [none, some "int", none, none, none, none, none] ∧
      ∃ e, (p.run .check).2.result = .error (.type e) ∧ e.chan = "a" ∧
        e.span.map (·.start.offset) = some 5 ∧
        ∃ span before behind, e.span = some span ∧
          before ++ e.chan.toList ++ behind = "(new a,b:int)(a<b> | a(x).x<>)".toList ∧
          span.start = .behind before ∧ span.stop = .behind (before ++ e.chan.toList) := by
  obtain ⟨p, parsed, hlabels, hhints, e, he, hchan, hstart⟩ :
      ∃ p, Program.parse "(new a,b:int)(a<b> | a(x).x<>)" = .ok p ∧
        p.process.occurrences.map p.store.label = ["a", "b", "a", "b", "a", "x", "x"] ∧
        p.process.occurrences.map p.store.hint = [none, some "int", none, none, none, none, none] ∧
        ∃ e, (p.run .check).2.result = .error (.type e) ∧ e.chan = "a" ∧
          e.span.map (·.start.offset) = some 5 := by
    decide +kernel
  obtain ⟨hnodup, -, hconflict⟩ := parse_named parsed
  exact ⟨p, parsed, hnodup, hlabels, hhints, e, he, hchan, hstart, hconflict e he⟩

end Program

end PiCalculus
