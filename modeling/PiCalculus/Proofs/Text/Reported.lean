import Mathlib
import PiCalculus.Proofs.Text.Misfit

/-! The place that a syntax error names. The first token with which no sentence can begin any more
settles it: the error names that token, or one that was given back before it. -/

namespace PiCalculus.Grammar

/-- The index that is reported if at another one the kinds cease to begin a sentence. An identifier
with which an atom begins is given back, with a bar before it, and so is a separator. -/
def reported (ks : List TokenKind) : Nat → Nat
  | 0 => 0
  | j + 1 =>
    if ks[j]? = some .identifier ∧ BeginsAtom (ks.take j) .identifier then
      if 0 < j ∧ ks[j - 1]? = some .bar then j - 1 else j
    else if ks[j]? = some .comma ∨ ks[j]? = some .bar then j
    else j + 1

/-- The span of the token at an index, or the empty one at the end of the last token. -/
def spanAt (ts : List Token) (k : Nat) : Span :=
  match ts[k]?, ts.getLast? with
  | some t, _ => t.span
  | none, some last => last.span.stop.span
  | none, none => Point.origin.span

theorem reported_le (ks : List TokenKind) (m : Nat) : reported ks m ≤ m := by
  cases m with
  | zero => exact le_rfl
  | succ j =>
    rw [reported]
    split_ifs <;> omega

theorem le_reported_add_two (ks : List TokenKind) (m : Nat) : m ≤ reported ks m + 2 := by
  cases m with
  | zero => exact Nat.zero_le _
  | succ j =>
    rw [reported]
    split_ifs <;> omega

theorem ofMisfit_span {ts : List Token} {k : Nat} {e : Misfit} (h : e.rest = ts.drop k) :
    (SyntaxError.ofMisfit ts e).span = spanAt ts k := by
  rw [SyntaxError.ofMisfit, spanAt, h, ← List.head?_drop]
  cases ts.drop k with
  | nil => cases ts.getLast? <;> rfl
  | cons t rest => rfl

theorem Viable.of_isPrefix {ks ks' : List TokenKind} (h : Viable ks) (hp : ks' <+: ks) :
    Viable ks' := by
  obtain ⟨d, hd⟩ := h
  exact ⟨d, hp.trans hd⟩

/-- Tokens from the beginning of a sentence, the same with their marks, and what they leave to be
ended. -/
inductive Taken : List Token → Past → Stack → Prop
  | nil : Taken [] [] .whole
  | snoc {pre : List Token} {past : Past} {st st' : Stack} {t : Token} (h : Taken pre past st)
      (hstep : st.step t.kind = some st') : Taken (pre ++ [t]) ((t, st.begins t.kind) :: past) st'

namespace Taken

variable {pre rest ts : List Token} {past : Past} {st : Stack}

/-- Tokens are taken up to the one that may not come next. -/
theorem misfit_eq (h : Taken pre past st) (ts : List Token) :
    ∃ pre' past' st' rest, pre ++ ts = pre' ++ rest ∧ Taken pre' past' st' ∧
      misfit past st ts = giveBack past' rest ∧ ∀ t ∈ rest.head?, st'.step t.kind = none := by
  induction ts generalizing pre past st with
  | nil => exact ⟨pre, past, st, [], rfl, h, rfl, by simp⟩
  | cons t ts ih =>
    cases hstep : st.step t.kind with
    | none => exact ⟨pre, past, st, t :: ts, rfl, h, misfit_of_stuck hstep, by simpa using hstep⟩
    | some next =>
      obtain ⟨pre', past', st', rest, heq, htaken, hmisfit, hstuck⟩ := ih (h.snoc hstep)
      refine ⟨pre', past', st', rest, ?_, htaken, (misfit_of_step hstep).trans hmisfit, hstuck⟩
      rw [← heq, List.append_assoc, List.singleton_append]

theorem run_eq (h : Taken pre past st) : Stack.whole.run (pre.map Token.kind) = some st := by
  induction h with
  | nil => rfl
  | snoc h hstep ih =>
    rw [List.map_append, Stack.run_append, ih]
    exact (Option.bind_some _ _).trans (by rw [List.map_singleton, Stack.run, hstep]; rfl)

/-- What may not come next is the first with which no sentence begins any more. -/
theorem isLeast (h : Taken pre past st) (hstuck : ∀ t ∈ rest.head?, st.step t.kind = none) :
    IsLeast {i | i = ((pre ++ rest).map Token.kind).length ∨
      ¬ Viable (((pre ++ rest).map Token.kind).take (i + 1))} pre.length := by
  constructor
  · cases rest with
    | nil => exact .inl (by simp)
    | cons t rest =>
      right
      have htake : ((pre ++ t :: rest).map Token.kind).take (pre.length + 1) =
          pre.map Token.kind ++ [t.kind] := by
        simp [List.take_append]
      rw [htake, viable_iff, Stack.run_append, h.run_eq]
      simp [Stack.run, hstuck t rfl]
  · rintro i (rfl | hi)
    · simp
    · by_contra hlt
      -- What was taken is the beginning of a sentence, and so is every shorter part.
      have hviable : Viable (pre.map Token.kind) := by
        rw [viable_iff, h.run_eq, Option.isSome_some]
      refine hi (hviable.of_isPrefix ?_)
      rw [← List.map_take, List.take_append_of_le_length (by omega)]
      exact (List.take_prefix _ _).map _

theorem beginsAtom_iff (h : Taken pre past st) {k : TokenKind} (hk : (st.step k).isSome) :
    BeginsAtom (pre.map Token.kind) k ↔ st.begins k = true := by
  rw [Grammar.beginsAtom_iff, h.run_eq]
  constructor
  · rintro ⟨st', heq, -, hbegins⟩
    cases heq
    exact hbegins
  · exact fun hbegins => ⟨st, rfl, hk, hbegins⟩

/-- A bar that is given back is the token before. -/
theorem giveBackBar_eq (h : Taken pre past st) (ts : List Token) :
    giveBackBar past ts = (pre ++ ts).drop
      (if 0 < pre.length ∧ ((pre ++ ts).map Token.kind)[pre.length - 1]? = some .bar
        then pre.length - 1 else pre.length) := by
  cases h with
  | nil => rfl
  | @snoc pre past st st' t h hstep =>
    have hlast : ((pre ++ [t] ++ ts).map Token.kind)[pre.length]? = some t.kind := by simp
    rw [giveBackBar, List.length_append, List.length_singleton, Nat.add_sub_cancel, hlast]
    by_cases hbar : t.kind = .bar
    · rw [if_pos hbar, if_pos ⟨Nat.succ_pos _, congrArg some hbar⟩, List.append_assoc,
        List.drop_left]
      rfl
    · rw [if_neg hbar, if_neg fun hcond => hbar (Option.some.inj hcond.2)]
      exact (List.drop_left' (by simp)).symm

/-- What is given back begins with the token that is reported. -/
theorem giveBack_eq (h : Taken pre past st) (rest : List Token) :
    giveBack past rest =
      (pre ++ rest).drop (reported ((pre ++ rest).map Token.kind) pre.length) := by
  cases h with
  | nil => rfl
  | @snoc pre past st st' t h hstep =>
    have hlast : ((pre ++ t :: rest).map Token.kind)[pre.length]? = some t.kind := by simp
    have htake : ((pre ++ t :: rest).map Token.kind).take pre.length = pre.map Token.kind := by
      rw [← List.map_take, List.take_left]
    -- Whether the last token begins an atom can be told from the automaton or from the language.
    have hbegins : (t.kind = .identifier ∧ BeginsAtom (pre.map Token.kind) .identifier) ↔
        t.kind = .identifier ∧ st.begins t.kind = true := by
      refine and_congr_right fun hid => ?_
      rw [← hid, h.beginsAtom_iff (by rw [hstep, Option.isSome_some])]
    rw [List.length_append, List.length_singleton, List.append_assoc, List.singleton_append,
      reported, hlast, htake, giveBack]
    simp only [Option.some.injEq, hbegins]
    by_cases hid : t.kind = .identifier ∧ st.begins t.kind = true
    · rw [if_pos hid, if_pos hid, h.giveBackBar_eq]
    · rw [if_neg hid, if_neg hid]
      by_cases hsep : t.kind = .comma ∨ t.kind = .bar
      · rw [if_pos hsep, if_pos hsep, List.drop_left]
      · rw [if_neg hsep, if_neg hsep, ← List.drop_drop, List.drop_left, List.drop_one,
          List.tail_cons]

end Taken

end PiCalculus.Grammar

namespace PiCalculus

open Grammar

theorem Program.parse_eq_error {source : String} {e : SyntaxError}
    (h : Program.parse source = .error e) :
    ∃ misfit, Parser.all (tokens source) = .error misfit ∧
      SyntaxError.ofMisfit (tokens source) misfit = e := by
  rw [Program.parse, PiCalculus.parse] at h
  cases hall : Parser.all (tokens source) with
  | error misfit =>
    rw [hall] at h
    exact ⟨misfit, rfl, Except.error.inj h⟩
  | ok p =>
    rw [hall] at h
    cases h

/-- A text is rejected at the first token with which no sentence begins any more, or at one of the
two before it that were taken only to see what follows; what stands before begins a sentence. -/
theorem Program.parse_reports {source : String} {e : SyntaxError}
    (h : Program.parse source = .error e) :
    let ts := tokens source
    let ks := ts.map Token.kind
    ∃ m, IsLeast {i | i = ks.length ∨ ¬ Viable (ks.take (i + 1))} m ∧
      e.span = spanAt ts (reported ks m) ∧ Viable (ks.take (reported ks m)) ∧
      reported ks m ≤ m ∧ m ≤ reported ks m + 2 := by
  intro ts ks
  obtain ⟨misfit, hall, rfl⟩ := Program.parse_eq_error h
  obtain ⟨pre, past, st, rest, hts, htaken, hmisfit, hstuck⟩ := Taken.nil.misfit_eq ts
  rw [List.nil_append] at hts
  have hleast := htaken.isLeast hstuck
  have hrest := ((misfit_of_all hall).trans hmisfit).trans (htaken.giveBack_eq rest)
  rw [← hts] at hleast hrest
  refine ⟨pre.length, hleast, ofMisfit_span hrest, ?_, reported_le _ _, le_reported_add_two _ _⟩
  have hviable : Viable (pre.map Token.kind) := by
    rw [viable_iff, htaken.run_eq, Option.isSome_some]
  have hpre : ks.take pre.length = pre.map Token.kind := by
    rw [show ks = (pre ++ rest).map Token.kind by rw [← hts], ← List.map_take, List.take_left]
  refine hviable.of_isPrefix ?_
  rw [← hpre]
  exact List.take_isPrefix_take.mpr (.inl (reported_le _ _))

theorem Program.parse_reports_given_back :
    ∃ e, Program.parse "a<b> | c" = .error e ∧
      let ks := (tokens "a<b> | c").map Token.kind
      IsLeast {i | i = ks.length ∨ ¬ Viable (ks.take (i + 1))} 6 ∧ reported ks 6 = 4 ∧
        e.span = spanAt (tokens "a<b> | c") 4 := by
  have hrejected : (Program.parse "a<b> | c").toBool = false := by decide +kernel
  cases h : Program.parse "a<b> | c" with
  | ok p =>
    rw [h] at hrejected
    cases hrejected
  | error e =>
    obtain ⟨m, hleast, hspan, -⟩ := Program.parse_reports h
    -- What was read is all viable, and it has six tokens.
    have hsix : m = 6 := by
      have hlength : ((tokens "a<b> | c").map Token.kind).length = 6 := by decide +kernel
      have hviable : ∀ i < 6, Viable (((tokens "a<b> | c").map Token.kind).take (i + 1)) := by
        decide +kernel
      refine le_antisymm (hleast.2 (.inl hlength.symm)) ?_
      rcases hleast.1 with heq | hnot
      · rw [heq, hlength]
      · by_contra hlt
        exact hnot (hviable m (Nat.lt_of_not_le hlt))
    subst hsix
    have hreported : reported ((tokens "a<b> | c").map Token.kind) 6 = 4 := by decide +kernel
    rw [hreported] at hspan
    exact ⟨e, rfl, hleast, hreported, hspan⟩

end PiCalculus
