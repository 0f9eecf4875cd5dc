import Mathlib
import PiCalculus.Proofs.Text.Layout
import PiCalculus.Proofs.Text.Reported

/-! What a syntax error expects. Where reading stops, something has been begun and not ended; what the
error names is how that may go on. -/

namespace PiCalculus.Grammar

/-- What closes a list of names closes it in a send or in a receive. -/
def Closer.reading : Closer → Construct
  | angle => .send
  | paren => .receive

/-- What is expected in the place of a token that does not go on with a frame. Behind a name with which
an atom begins, and behind a comma in a list of names, reading never stops: these are given back. -/
def Frame.expected : Frame → Option Expectation
  | atom | opened => some (.token .process .leftParen)
  | bars => some (.token .process .rightParen)
  | names close | moreNames close => some (.token close.reading close.kind)
  | dot => some (.token .receive .dot)
  | binder | hintName => some (.token .restrictedName .identifier)
  | hint | moreBinders => some (.token .restriction .rightParen)
  | named | name _ => none

variable {st st' st'' : Stack} {k : TokenKind} {t : Token} {ts ts' rest : List Token}
  {reading : Construct}

namespace Stack

def expected : Stack → Option Expectation
  | [] => some .endOfInput
  | f :: _ => f.expected

theorem step_isSome_of_expected (h : st.expected = some (.token reading k)) :
    (st.step k).isSome := by
  cases st with
  | nil => cases h
  | cons f st =>
    cases f with
    | names close => cases close <;> cases h <;> rfl
    | moreNames close => cases close <;> cases h <;> rfl
    | _ => cases h <;> rfl

theorem eq_nil_of_expected (h : st.expected = some .endOfInput) : st = [] := by
  cases st with
  | nil => rfl
  | cons f st => cases f <;> cases h

/-- Whether tokens may come one after the other up to some rest. -/
def Takes (st : Stack) (ts : List Token) (st' : Stack) (rest : List Token) : Prop :=
  ∃ pre, pre ++ rest = ts ∧ st.run (pre.map Token.kind) = some st'

theorem Takes.refl (st : Stack) (ts : List Token) : st.Takes ts st ts := ⟨[], rfl, rfl⟩

theorem Takes.cons (hk : t.kind = k) (hstep : st.step k = some st')
    (h : st'.Takes ts st'' rest) : st.Takes (t :: ts) st'' rest := by
  obtain ⟨pre, rfl, hrun⟩ := h
  refine ⟨t :: pre, rfl, ?_⟩
  rw [List.map_cons, run, hk, hstep]
  exact hrun

theorem Takes.trans (h : st.Takes ts st' ts') (h' : st'.Takes ts' st'' rest) :
    st.Takes ts st'' rest := by
  obtain ⟨pre, rfl, hrun⟩ := h
  obtain ⟨pre', rfl, hrun'⟩ := h'
  refine ⟨pre ++ pre', List.append_assoc .., ?_⟩
  rw [List.map_append, run_append, hrun]
  exact hrun'

/-- Whether reading takes tokens as they may come and, if it stops, says what it expected. -/
def Reads {α : Type} (st : Stack) (ts : List Token) (leaves : Stack → Prop)
    (rest : α → List Token) : Except Misfit α → Prop
  | .ok a => ∃ st', st.Takes ts st' (rest a) ∧ leaves st'
  | .error e => ∃ st', st.Takes ts st' e.rest ∧ st'.expected = some e.expectation

section Reads

variable {α β : Type} {leaves leaves' : Stack → Prop} {restOf : α → List Token}
  {restOf' : β → List Token} {x : Except Misfit α} {f : α → Except Misfit β}

theorem Reads.of_takes (h : st.Takes ts st' ts') (hx : st'.Reads ts' leaves restOf x) :
    st.Reads ts leaves restOf x := by
  cases x with
  | error e =>
    obtain ⟨st'', htakes, hexpected⟩ := hx
    exact ⟨st'', h.trans htakes, hexpected⟩
  | ok a =>
    obtain ⟨st'', htakes, hleaves⟩ := hx
    exact ⟨st'', h.trans htakes, hleaves⟩

theorem Reads.bind (hx : st.Reads ts leaves restOf x)
    (hf : ∀ a st', leaves st' → st'.Reads (restOf a) leaves' restOf' (f a)) :
    st.Reads ts leaves' restOf' (x >>= f) := by
  cases x with
  | error e => exact hx
  | ok a =>
    obtain ⟨st', htakes, hleaves⟩ := hx
    exact (hf a st' hleaves).of_takes htakes

end Reads

/-- Whether a stack may be closed, and expects what closes it. -/
structure Closes (reading : Construct) (k : TokenKind) (st st' : Stack) : Prop where
  step : st'.step k = some st
  expected : st'.expected = some (.token reading k)

theorem reads_expect (h : Closes reading k st st') (ts : List Token) :
    st'.Reads ts (· = st) id (Parser.expect reading k ts) := by
  cases ts with
  | nil => exact ⟨st', .refl .., h.expected⟩
  | cons t ts =>
    rw [Parser.expect]
    split
    · next ht => exact ⟨st, .cons ht h.step (.refl ..), rfl⟩
    · exact ⟨st', .refl .., h.expected⟩

section names

variable (close : Closer) (st : Stack)

theorem takes_moreNames (ts : List Token) :
    Takes (.moreNames close :: st) ts (.moreNames close :: st) (Parser.moreNames ts).2 := by
  fun_induction Parser.moreNames ts with
  | case1 comma name ts hk names rest heq ih =>
    rw [heq] at ih
    exact .cons hk.1 rfl (.cons hk.2 rfl ih)
  | case2 comma name ts hk => exact .refl ..
  | case3 ts hts => exact .refl ..

theorem closes_names : Closes close.reading close.kind st (.names close :: st) := by
  cases close <;> exact ⟨rfl, rfl⟩

theorem closes_moreNames : Closes close.reading close.kind st (.moreNames close :: st) := by
  cases close <;> exact ⟨rfl, rfl⟩

theorem reads_names (ts : List Token) :
    Reads (.names close :: st) ts (· = st) id
      (Parser.expect close.reading close.kind (Parser.names ts).2) := by
  cases ts with
  | nil => exact reads_expect (closes_names close st) []
  | cons name ts =>
    rw [Parser.names]
    split
    · next hid =>
      refine .of_takes (.cons hid rfl (takes_moreNames close st ts)) ?_
      exact reads_expect (closes_moreNames close st) _
    · exact reads_expect (closes_names close st) _

end names

section binders

/-- Whether a list of restricted names may go on or be closed. -/
structure Lists (st st' : Stack) : Prop where
  step : st'.step .comma = some (.binder :: st)
  closes : Closes .restriction .rightParen st st'

theorem lists_hint (st : Stack) : Lists st (.hint :: st) := ⟨rfl, rfl, rfl⟩

theorem lists_moreBinders (st : Stack) : Lists st (.moreBinders :: st) := ⟨rfl, rfl, rfl⟩

theorem reads_hint (st : Stack) (ts : List Token) :
    Reads (.hint :: st) ts (Lists st) Prod.snd (Parser.hint ts) := by
  unfold Parser.hint
  split
  · next colon ts =>
    split
    · next hcolon =>
      refine .of_takes (.cons hcolon rfl (.refl ..)) ?_
      split
      · exact ⟨_, .refl .., rfl⟩
      · next u rest =>
        split
        · next hu =>
          exact ⟨_, .cons hu rfl (.refl ..), lists_moreBinders st⟩
        · exact ⟨_, .refl .., rfl⟩
    · exact ⟨_, .refl .., lists_hint st⟩
  · exact ⟨_, .refl .., lists_hint st⟩

theorem reads_binder (st : Stack) (ts : List Token) :
    Reads (.binder :: st) ts (Lists st) Prod.snd (Parser.binder ts) := by
  cases ts with
  | nil => exact ⟨_, .refl .., rfl⟩
  | cons t ts =>
    rw [Parser.binder]
    split
    · next hid =>
      refine .of_takes (.cons hid rfl (.refl ..)) ?_
      refine (reads_hint st ts).bind fun r st₁ h₁ => ?_
      exact ⟨st₁, .refl .., h₁⟩
    · exact ⟨_, .refl .., rfl⟩

theorem reads_moreBinders (h : Lists st st') (n : Nat) (ts : List Token) :
    st'.Reads ts (Closes .restriction .rightParen st) Prod.snd (Parser.moreBinders n ts) := by
  fun_induction Parser.moreBinders n ts generalizing st' with
  | case1 n comma t ts hk ih =>
    refine .of_takes (.cons hk.1 h.step (.refl ..)) ?_
    refine (reads_binder st (t :: ts)).bind fun r st₁ h₁ => ?_
    refine (ih r.2 h₁).bind fun r' st₂ h₂ => ?_
    exact ⟨st₂, .refl .., h₂⟩
  | case2 n comma t ts hk => exact ⟨st', .refl .., h.closes⟩
  | case3 n ts hts => exact ⟨st', .refl .., h.closes⟩

end binders

/-- Whether an atom may begin, and is expected. -/
structure AwaitsAtom (st st' : Stack) : Prop where
  step : ∀ k fs, Frame.begun k = some fs → st'.step k = some (fs ++ st)
  expected : st'.expected = some (.token .process .leftParen)

theorem awaitsAtom_atom (st : Stack) : AwaitsAtom st (.atom :: st) := by
  refine ⟨fun k fs hk => ?_, rfl⟩
  rw [Stack.step, Frame.step, hk, Option.map_some]

theorem awaitsAtom_opened (st : Stack) : AwaitsAtom (.bars :: st) (.opened :: st) := by
  refine ⟨fun k fs hk => ?_, rfl⟩
  have hnew : k ≠ .new := by
    rintro rfl
    cases hk
  rw [Stack.step, Frame.step, if_neg hnew, hk, Option.map_some, Option.map_some,
    List.append_assoc, List.singleton_append]

/-- Whether what is read with a bound on the nesting says what it expects. The bound does not matter,
since a reader without one left expects an atom as well. -/
structure ReadsExpecting (n : Nat) : Prop where
  atom : ∀ {st st' : Stack} {ts : List Token}, AwaitsAtom st st' →
    st'.Reads ts (· = st) Prod.snd (Parser.atom n ts)
  composition : ∀ {st st' : Stack} {ts : List Token}, AwaitsAtom st st' →
    st.step .bar = some (.atom :: st) →
    st'.Reads ts (· = st) Prod.snd (Parser.composition n ts)
  beside : ∀ {st : Stack} {left : Process Occurrence} {ts : List Token},
    st.step .bar = some (.atom :: st) →
    st.Reads ts (· = st) Prod.snd (Parser.beside n left ts)

namespace ReadsExpecting

variable {n : Nat}

theorem beside_succ (ih : ReadsExpecting n) {left : Process Occurrence}
    (hbar : st.step .bar = some (.atom :: st)) :
    st.Reads ts (· = st) Prod.snd (Parser.beside (n + 1) left ts) := by
  cases ts with
  | nil => exact ⟨st, .refl .., rfl⟩
  | cons bar ts =>
    rw [Parser.beside]
    split
    · next hk =>
      refine .of_takes (.cons hk.1 hbar (.refl ..)) ?_
      refine (ih.atom (awaitsAtom_atom st)).bind fun r st₁ h₁ => ?_
      obtain rfl := h₁
      exact ih.beside hbar
    · exact ⟨st, .refl .., rfl⟩

theorem composition_succ (ih : ReadsExpecting n) (h : AwaitsAtom st st')
    (hbar : st.step .bar = some (.atom :: st)) :
    st'.Reads ts (· = st) Prod.snd (Parser.composition (n + 1) ts) := by
  rw [Parser.composition]
  refine (ih.atom h).bind fun r st₁ h₁ => ?_
  obtain rfl := h₁
  exact ih.beside hbar

theorem atom_succ (ih : ReadsExpecting n) (h : AwaitsAtom st st') :
    st'.Reads ts (· = st) Prod.snd (Parser.atom (n + 1) ts) := by
  rw [Parser.atom]
  -- The cases are the openings, in the order of the reader.
  split
  · exact ⟨st', .refl .., h.expected⟩
  · next rest ho =>
    obtain ⟨⟨zero, hzero⟩, rfl⟩ := of_opening? ho
    exact ⟨st, .cons hzero (h.step .nil [] rfl) (.refl ..), rfl⟩
  · next rest ho =>
    obtain ⟨⟨bang, hbang⟩, rfl⟩ := of_opening? ho
    have hstep : st'.step .bang = some (.atom :: st) := h.step .bang [.atom] rfl
    refine .of_takes (.cons hbang hstep (.refl ..)) ?_
    refine (ih.atom (awaitsAtom_atom st)).bind fun r st₁ h₁ => ?_
    exact ⟨st₁, .refl .., h₁⟩
  · next rest ho =>
    obtain ⟨⟨left, hleft⟩, ⟨new, hnew⟩, rfl⟩ := of_opening? ho
    have hstep : st'.step .leftParen = some (.opened :: st) := h.step .leftParen [.opened] rfl
    refine .of_takes (.cons hleft hstep (.cons hnew rfl (.refl ..))) ?_
    refine (reads_binder (.atom :: st) rest).bind fun name st₁ h₁ => ?_
    refine (reads_moreBinders h₁ n name.2).bind fun names st₂ h₂ => ?_
    refine (reads_expect h₂ names.2).bind fun rest₃ st₃ h₃ => ?_
    obtain rfl := h₃
    refine (ih.atom (awaitsAtom_atom st)).bind fun body st₄ h₄ => ?_
    exact ⟨st₄, .refl .., h₄⟩
  · next rest ho =>
    obtain ⟨⟨left, hleft⟩, rfl⟩ := of_opening? ho
    have hstep : st'.step .leftParen = some (.opened :: st) := h.step .leftParen [.opened] rfl
    refine .of_takes (.cons hleft hstep (.refl ..)) ?_
    refine (ih.composition (awaitsAtom_opened st) rfl).bind fun inside st₁ h₁ => ?_
    obtain rfl := h₁
    have hcloses : Closes .process .rightParen st (.bars :: st) := ⟨rfl, rfl⟩
    refine (reads_expect hcloses inside.2).bind fun rest₂ st₂ h₂ => ?_
    exact ⟨st₂, .refl .., h₂⟩
  · next chan rest ho =>
    obtain ⟨⟨name, hid⟩, ⟨less, hless⟩, rfl, -⟩ := of_opening? ho
    have hstep : st'.step .identifier = some (.named :: st) := h.step .identifier [.named] rfl
    refine .of_takes (.cons hid hstep (.cons hless rfl (.refl ..))) ?_
    refine (reads_names .angle st rest).bind fun rest₁ st₁ h₁ => ?_
    exact ⟨st₁, .refl .., h₁⟩
  · next chan rest ho =>
    obtain ⟨⟨name, hid⟩, ⟨left, hleft⟩, rfl, -⟩ := of_opening? ho
    have hstep : st'.step .identifier = some (.named :: st) := h.step .identifier [.named] rfl
    refine .of_takes (.cons hid hstep (.cons hleft rfl (.refl ..))) ?_
    refine (reads_names .paren (.dot :: .atom :: st) rest).bind fun rest₁ st₁ h₁ => ?_
    obtain rfl := h₁
    have hcloses : Closes .receive .dot (.atom :: st) (.dot :: .atom :: st) := ⟨rfl, rfl⟩
    refine (reads_expect hcloses rest₁).bind fun rest₂ st₂ h₂ => ?_
    obtain rfl := h₂
    refine (ih.atom (awaitsAtom_atom st)).bind fun body st₃ h₃ => ?_
    exact ⟨st₃, .refl .., h₃⟩

end ReadsExpecting

theorem readsExpecting (n : Nat) : ReadsExpecting n := by
  induction n with
  | zero =>
    refine ⟨fun h => ⟨_, .refl .., h.expected⟩, fun h _ => ⟨_, .refl .., h.expected⟩, fun _ => ?_⟩
    exact ⟨_, .refl .., rfl⟩
  | succ n ih => exact ⟨ih.atom_succ, ih.composition_succ, ih.beside_succ⟩

/-- Reading stops where the tokens that were taken leave what the error expects to be ended. -/
theorem takes_of_all {e : Misfit} (h : Parser.all ts = .error e) :
    ∃ st, whole.Takes ts st e.rest ∧ st.expected = some e.expectation := by
  have hread : whole.Reads ts (· = []) Prod.snd (Parser.composition (2 * ts.length + 2) ts) :=
    (readsExpecting _).composition (awaitsAtom_atom []) rfl
  rw [Parser.all] at h
  split at h
  · next heq =>
    cases h
    rw [heq] at hread
    exact hread
  · cases h
  · next p rest _ heq =>
    cases h
    rw [heq] at hread
    obtain ⟨st, htakes, rfl⟩ := hread
    exact ⟨[], htakes, rfl⟩

theorem nil_mem_language : [] ∈ language [] := by
  rw [language, Frame.ending_nil, one_mul]
  exact ⟨.none, rfl⟩

/-- Where nothing is left to be ended, what was taken is a sentence. -/
theorem exists_kinds_eq {ks : List TokenKind} (h : whole.run ks = some []) :
    ∃ d : Derivation, d.kinds = ks := by
  have hmark := map_fst_mark h
  have hmem : whole.mark ks ++ [] ∈ whole.language := by
    refine mem_language_append.mpr ⟨[], ?_, ?_, nil_mem_language⟩
    · rwa [hmark]
    · rw [hmark]
  obtain ⟨d, hd⟩ := mem_language_whole.mp hmem
  refine ⟨d, ?_⟩
  rw [Composition.kinds, ← Composition.marked_map_fst, hd, List.append_nil, hmark]

end Stack

/-- The places at which errors can be reported follow one another. -/
theorem spanAt_lt {ts : List Token} (hpos : ∀ t ∈ ts, t.span.start.offset < t.span.stop.offset)
    (hpair : ts.Pairwise fun t u => t.span.stop.offset ≤ u.span.start.offset) {j k : Nat}
    (hjk : j < k) (hk : k ≤ ts.length) :
    (spanAt ts j).start.offset < (spanAt ts k).start.offset := by
  have hj : j < ts.length := hjk.trans_le hk
  have hspanj : spanAt ts j = ts[j].span := by rw [spanAt, List.getElem?_eq_getElem hj]
  have hposj := hpos _ (List.getElem_mem hj)
  have hbefore : ∀ i (hi : i < ts.length), j < i → ts[j].span.stop.offset ≤ ts[i].span.start.offset :=
    fun i hi hji => List.pairwise_iff_getElem.mp hpair j i hj hi hji
  rw [hspanj]
  rcases hk.lt_or_eq with hk | rfl
  · have hspank : spanAt ts k = ts[k].span := by rw [spanAt, List.getElem?_eq_getElem hk]
    rw [hspank]
    exact hposj.trans_le (hbefore k hk hjk)
  · -- The end is behind the last token, which may be the one before it.
    have hne : ts ≠ [] := List.ne_nil_of_length_pos (Nat.zero_lt_of_lt hj)
    have hlast : ts.length - 1 < ts.length := by omega
    have hspank : (spanAt ts ts.length).start = ts[ts.length - 1].span.stop := by
      rw [spanAt, List.getElem?_eq_none le_rfl, List.getLast?_eq_getElem?,
        List.getElem?_eq_getElem hlast]
      rfl
    rw [hspank]
    rcases Nat.lt_or_eq_of_le (Nat.le_sub_one_of_lt hj) with hlt | heq
    · have hposlast := hpos _ (List.getElem_mem hlast)
      exact (hposj.trans_le (hbefore _ hlast hlt)).trans hposlast
    · simp only [← heq]
      exact hposj

end PiCalculus.Grammar

namespace PiCalculus

open Grammar

/-- Whether an error is reported at an index among tokens, and at no other one. -/
def SyntaxError.IsAt (e : SyntaxError) (ts : List Token) (k : Nat) : Prop :=
  k ≤ ts.length ∧ ∀ j ≤ ts.length, e.span = spanAt ts j ↔ j = k

theorem SyntaxError.isAt_of_span {source : String} {e : SyntaxError} {k : Nat}
    (hk : k ≤ (tokens source).length) (h : e.span = spanAt (tokens source) k) :
    e.IsAt (tokens source) k := by
  obtain ⟨first, pieces, hlays⟩ := scan_laysOut [] source.toList
  have hpos : ∀ t ∈ tokens source, t.span.start.offset < t.span.stop.offset := fun t ht =>
    hlays.start_lt_stop ht
  refine ⟨hk, fun j hj => ⟨fun heq => ?_, fun heq => heq ▸ h⟩⟩
  rw [h] at heq
  rcases Nat.lt_trichotomy j k with hlt | rfl | hlt
  · exact absurd (spanAt_lt hpos hlays.pairwise hlt hk) (by rw [heq]; exact Nat.lt_irrefl _)
  · rfl
  · exact absurd (spanAt_lt hpos hlays.pairwise hlt hj) (by rw [heq]; exact Nat.lt_irrefl _)

namespace Program

variable {source : String} {e : SyntaxError}

/-- An error stands where reading stopped, with what was left to be ended there, and the kinds of the
tokens settle where that is. -/
theorem exists_isAt (h : Program.parse source = .error e) :
    let ks := (tokens source).map Token.kind
    ∃ m, IsLeast {i | i = ks.length ∨ ¬ Viable (ks.take (i + 1))} m ∧
      e.IsAt (tokens source) (reported ks m) ∧
      ∃ st, Stack.whole.run (ks.take (reported ks m)) = some st ∧
        st.expected = some e.expectation := by
  intro ks
  obtain ⟨misfit, hall, rfl⟩ := parse_eq_error h
  obtain ⟨pre, past, st, rest, hts, htaken, hmisfit, hstuck⟩ := Taken.nil.misfit_eq (tokens source)
  rw [List.nil_append] at hts
  -- Where the automaton gets stuck and what is given back are settled by the kinds alone.
  have hleast := htaken.isLeast hstuck
  have hrest := ((misfit_of_all hall).trans hmisfit).trans (htaken.giveBack_eq rest)
  rw [← hts, show (tokens source).map Token.kind = ks from rfl] at hleast hrest
  have hle : reported ks pre.length ≤ (tokens source).length := by
    refine (reported_le _ _).trans ?_
    rw [hts, List.length_append]
    exact Nat.le_add_right ..
  -- What the parser has taken is as long as what was taken and not given back.
  obtain ⟨st', ⟨taken, htake, hrun⟩, hexpected⟩ := Stack.takes_of_all hall
  have hlength : taken.length = reported ks pre.length := by
    have hsum := congrArg List.length htake
    rw [hrest, List.length_append, List.length_drop] at hsum
    omega
  refine ⟨pre.length, hleast, SyntaxError.isAt_of_span hle (ofMisfit_span hrest), st', ?_, hexpected⟩
  have htaken : (tokens source).take (reported ks pre.length) = taken := by
    rw [← htake, ← hlength, List.take_left]
  rw [← List.map_take, htaken, hrun]

/-- What an error expects goes on with what stands before it, and where it expects the end of the input
all that stands before it is a sentence. -/
theorem parse_expects (h : Program.parse source = .error e) :
    let ks := (tokens source).map Token.kind
    ∃ k, e.IsAt (tokens source) k ∧
      match e.expectation with
      | .token reading kind =>
        e.help = "invalid " ++ reading.text ++ "\nexpected `" ++ kind.text ++ "`" ∧
          Viable (ks.take k ++ [kind])
      | .endOfInput => e.help = "expected end of input" ∧ ∃ d : Derivation, d.kinds = ks.take k := by
  intro ks
  obtain ⟨m, -, hat, st, hrun, hexpected⟩ := exists_isAt h
  refine ⟨_, hat, ?_⟩
  rw [SyntaxError.help]
  cases hcase : e.expectation with
  | token reading kind =>
    rw [hcase] at hexpected
    obtain ⟨st', hstep⟩ := Option.isSome_iff_exists.mp (Stack.step_isSome_of_expected hexpected)
    refine ⟨rfl, viable_iff.mpr ?_⟩
    rw [Stack.run_append, hrun, Option.bind_some, Stack.run, hstep]
    rfl
  | endOfInput =>
    rw [hcase] at hexpected
    obtain rfl := Stack.eq_nil_of_expected hexpected
    exact ⟨rfl, Stack.exists_kinds_eq hrun⟩

/-- What is to hold of the error can be tested by reading. -/
instance decidableExistsError (source : String) (P : SyntaxError → Prop) [DecidablePred P] :
    Decidable (∃ e, Program.parse source = .error e ∧ P e) :=
  match h : Program.parse source with
  | .ok p => .isFalse (by simp)
  | .error e => decidable_of_iff (P e) (by simp)

/-- The comma is given back, so that the list of values could be closed in its place. -/
theorem parse_expects_close :
    let ts := tokens "(new a:T)(a<b,> | 0)"
    ∃ e, Program.parse "(new a:T)(a<b,> | 0)" = .error e ∧ e.IsAt ts 10 ∧
      e.help = "invalid send\nexpected `>`" ∧
      Viable ((ts.map Token.kind).take 10 ++ [.greater]) := by
  intro ts
  obtain ⟨e, rejected, hspan, hexpects⟩ : ∃ e, Program.parse "(new a:T)(a<b,> | 0)" = .error e ∧
      e.span = spanAt (tokens "(new a:T)(a<b,> | 0)") 10 ∧
      e.expectation = .token .send .greater := by
    decide +kernel
  obtain ⟨k, hat, hviable⟩ := parse_expects rejected
  obtain rfl : 10 = k := (hat.2 10 (by decide +kernel)).mp hspan
  rw [hexpects] at hviable
  exact ⟨e, rejected, hat, hviable.1, hviable.2⟩

end Program
end PiCalculus
