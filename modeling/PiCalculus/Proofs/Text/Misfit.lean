import Mathlib
import PiCalculus.Proofs.Text.Viable

/-! Where reading stops. The reader goes on as long as what it has taken begins a sentence, and then
gives back what it has taken only to look ahead: an identifier of which it is not clear yet what it
begins, or a separator, or both. -/

namespace PiCalculus.Grammar

/-- Tokens that have been taken with their marks, the last one first. -/
abbrev Past := List (Token × Bool)

/-- The tokens that follow, with a bar before them if one was taken last. -/
def giveBackBar : Past → List Token → List Token
  | [], ts => ts
  | (t, _) :: _, ts => if t.kind = .bar then t :: ts else ts

/-- The tokens that follow, with those before them that are given back. -/
def giveBack : Past → List Token → List Token
  | [], ts => ts
  | (t, begins) :: past, ts =>
    if t.kind = .identifier ∧ begins then giveBackBar past (t :: ts)
    else if t.kind = .comma ∨ t.kind = .bar then t :: ts else ts

/-- The tokens from the misfit on, if tokens are taken as long as they may come next. -/
def misfit : Past → Stack → List Token → List Token
  | past, _, [] => giveBack past []
  | past, st, t :: ts =>
    match st.step t.kind with
    | none => giveBack past (t :: ts)
    | some st' => misfit ((t, st.begins t.kind) :: past) st' ts

variable {past : Past} {st st' : Stack} {t : Token} {ts : List Token} {b : Bool} {k : TokenKind}

theorem misfit_nil (past : Past) (st : Stack) : misfit past st [] = giveBack past [] := rfl

theorem misfit_of_step (h : st.step t.kind = some st') :
    misfit past st (t :: ts) = misfit ((t, st.begins t.kind) :: past) st' ts := by
  rw [misfit, h]

theorem misfit_of_stuck (h : st.step t.kind = none) :
    misfit past st (t :: ts) = giveBack past (t :: ts) := by
  rw [misfit, h]

/-- Whether nothing is given back of what has been taken. -/
def Quiet (past : Past) : Prop := ∀ ts, giveBack past ts = ts

theorem quiet_nil : Quiet [] := fun _ => rfl

theorem quiet_cons (h : t.kind ∉ [.identifier, .comma, .bar]) : Quiet ((t, b) :: past) := by
  intro ts
  simp only [List.mem_cons, List.not_mem_nil, or_false, not_or] at h
  rw [giveBack, if_neg fun hi => h.1 hi.1, if_neg (not_or.mpr h.2)]

theorem quiet_of_identifier (h : t.kind = .identifier) : Quiet ((t, false) :: past) := by
  intro ts
  rw [giveBack, if_neg fun hi => Bool.false_ne_true hi.2, if_neg]
  simp [h]

theorem giveBack_separator (h : t.kind = .comma ∨ t.kind = .bar) :
    giveBack ((t, b) :: past) ts = t :: ts := by
  rw [giveBack, if_neg, if_pos h]
  rintro ⟨hi, -⟩
  simp [hi] at h

/-- An identifier that begins an atom is given back with a bar before it. -/
theorem giveBack_identifier (h : t.kind = .identifier)
    (hp : Quiet past ∨ ∃ bar past', past = (bar, false) :: past' ∧ bar.kind = .bar) :
    giveBack ((t, true) :: past) ts = giveBack past (t :: ts) := by
  rw [giveBack, if_pos ⟨h, rfl⟩]
  rcases hp with hp | ⟨bar, past', rfl, hbar⟩
  · rw [hp]
    cases past with
    | nil => rfl
    | cons q past =>
      obtain ⟨bar, c⟩ := q
      rw [giveBackBar, if_neg]
      intro hbar
      have hback := hp [t]
      rw [giveBack_separator (.inr hbar)] at hback
      simp at hback
  · rw [giveBack_separator (.inr hbar), giveBackBar, if_pos hbar]

theorem begun_eq_none (h : Parser.opening? (t :: ts) = none) (hid : t.kind ≠ .identifier) :
    Frame.begun t.kind = none := by
  cases hk : t.kind with
  | nil => simp [Parser.opening?, hk] at h
  | bang => simp [Parser.opening?, hk] at h
  | leftParen =>
    cases ts with
    | nil => simp [Parser.opening?, hk] at h
    | cons next ts =>
      simp only [Parser.opening?, hk] at h
      split at h <;> cases h
  | identifier => exact absurd hk hid
  | _ => rfl

/-- Where no atom opens, all that was taken to see it is given back. -/
theorem misfit_of_not_opening (h : Parser.opening? ts = none)
    (hp : Quiet past ∨ ∃ bar past', past = (bar, false) :: past' ∧ bar.kind = .bar) :
    misfit past (.atom :: st) ts = giveBack past ts := by
  cases ts with
  | nil => rfl
  | cons t ts =>
    by_cases hid : t.kind = .identifier
    · have hstep : Stack.step (.atom :: st) t.kind = some (.named :: st) := by rw [hid]; rfl
      rw [misfit_of_step hstep, ← giveBack_identifier hid hp]
      cases ts with
      | nil => rfl
      | cons next ts =>
        simp only [Parser.opening?, hid] at h
        apply misfit_of_stuck
        rw [Stack.step]
        cases hk : next.kind <;> simp_all [Frame.step]
    · apply misfit_of_stuck
      rw [Stack.step, Frame.step, begun_eq_none h hid, Option.map_none]

/-- Whether reading goes along with taking tokens as long as they may come next: what it leaves is
where the other way leads as well, or they come to the same misfit. -/
def ReadsAlong {α : Type} (past : Past) (st : Stack) (ts : List Token)
    (leaves : Past → List Token → Prop) (rest : α → List Token) (st' : Stack) :
    Except Misfit α → Prop
  | .ok a => ∃ past', leaves past' (rest a) ∧ (rest a).length ≤ ts.length ∧
      misfit past st ts = misfit past' st' (rest a)
  | .error e => e.rest = misfit past st ts

theorem ReadsAlong.of_misfit {α : Type} {leaves : Past → List Token → Prop} {rest : α → List Token}
    {past' : Past} {st'' : Stack} {ts' : List Token} {x : Except Misfit α}
    (hmisfit : misfit past st ts = misfit past' st' ts') (hlength : ts'.length ≤ ts.length)
    (h : ReadsAlong past' st' ts' leaves rest st'' x) :
    ReadsAlong past st ts leaves rest st'' x := by
  cases x with
  | error e => exact Eq.trans h hmisfit.symm
  | ok a =>
    obtain ⟨past'', hleaves, hlength', hmisfit'⟩ := h
    exact ⟨past'', hleaves, hlength'.trans hlength, hmisfit.trans hmisfit'⟩

theorem ReadsAlong.bind {α β : Type} {leaves leaves' : Past → List Token → Prop}
    {rest : α → List Token} {rest' : β → List Token} {st'' : Stack} {x : Except Misfit α}
    {f : α → Except Misfit β} (h : ReadsAlong past st ts leaves rest st' x)
    (hf : ∀ a past', leaves past' (rest a) → (rest a).length ≤ ts.length →
      ReadsAlong past' st' (rest a) leaves' rest' st'' (f a)) :
    ReadsAlong past st ts leaves' rest' st'' (x >>= f) := by
  cases x with
  | error e => exact h
  | ok a =>
    obtain ⟨past', hleaves, hlength, hmisfit⟩ := h
    exact (hf a past' hleaves hlength).of_misfit hmisfit hlength

/-- Whether nothing goes on but what closes. -/
def Halts (closes : TokenKind → Prop) (st : Stack) (past : Past) (rest : List Token) : Prop :=
  (∀ t ∈ rest.head?, ¬ closes t.kind) → misfit past st rest = rest

/-- What closes a frame is taken, and anything else is the misfit. -/
theorem readsAlong_expect {f : Frame} (reading : Construct)
    (hclose : f.step k = some []) (hk : k ∉ [.identifier, .comma, .bar])
    (hhalts : Halts (· = k) (f :: st) past ts) :
    ReadsAlong past (f :: st) ts (fun past _ => Quiet past) id st
      (Parser.expect reading k ts) := by
  cases ts with
  | nil => exact (hhalts (by simp)).symm
  | cons t ts =>
    rw [Parser.expect]
    split
    · next ht =>
      have hstep : Stack.step (f :: st) t.kind = some st := by
        rw [Stack.step, ht, hclose]
        rfl
      exact ⟨_, quiet_cons (ht ▸ hk), by simp, misfit_of_step hstep⟩
    · next ht => exact (hhalts (by simpa using ht)).symm

theorem Quiet.halts (hp : Quiet past) {closes : TokenKind → Prop}
    (h : ∀ t ∈ ts.head?, ¬ closes t.kind → st.step t.kind = none) : Halts closes st past ts := by
  intro hhead
  cases ts with
  | nil => exact hp []
  | cons t ts =>
    have hstuck := h t rfl (hhead t rfl)
    rw [misfit_of_stuck hstuck, hp]

section names

variable {close : Closer}

theorem step_moreNames_eq_none (hcomma : k ≠ .comma) (hclose : k ≠ close.kind) :
    Stack.step (.moreNames close :: st) k = none := by
  cases close <;> cases k <;> simp_all [Stack.step, Frame.step, Closer.kind]

theorem step_name_eq_none (h : k ≠ .identifier) : Stack.step (.name close :: st) k = none := by
  cases k <;> simp_all [Stack.step, Frame.step]

/-- A comma is given back if no name follows it. -/
theorem misfit_moreNames (hp : Quiet past) (ts : List Token) :
    ∃ past', (Parser.moreNames ts).2.length ≤ ts.length ∧
      misfit past (.moreNames close :: st) ts =
        misfit past' (.moreNames close :: st) (Parser.moreNames ts).2 ∧
      Halts (· = close.kind) (.moreNames close :: st) past' (Parser.moreNames ts).2 := by
  have hcommaStep : ∀ {t : Token}, t.kind = .comma →
      Stack.step (.moreNames close :: st) t.kind = some (.name close :: st) := by
    intro t ht
    rw [ht]
    rfl
  -- A comma and its name are taken together, so a comma without one has been taken one too far.
  fun_induction Parser.moreNames ts generalizing past with
  | case1 comma name ts hk names rest heq ih =>
    rw [heq] at ih
    have hquiet : Quiet ((name, false) :: (comma, false) :: past) := quiet_of_identifier hk.2
    obtain ⟨past', hlength, hmisfit, hhalts⟩ := ih hquiet
    have hname : Stack.step (.name close :: st) name.kind = some (.moreNames close :: st) := by
      rw [hk.2]
      rfl
    refine ⟨past', hlength.trans (Nat.le_add_right _ 2), ?_, hhalts⟩
    rw [misfit_of_step (hcommaStep hk.1), misfit_of_step hname]
    exact hmisfit
  | case2 comma name ts hk =>
    refine ⟨past, le_rfl, rfl, fun hhead => ?_⟩
    by_cases hcomma : comma.kind = .comma
    · have hname : Stack.step (.name close :: st) name.kind = none :=
        step_name_eq_none fun hn => hk ⟨hcomma, hn⟩
      rw [misfit_of_step (hcommaStep hcomma), misfit_of_stuck hname,
        giveBack_separator (.inl hcomma)]
    · rw [misfit_of_stuck (step_moreNames_eq_none hcomma (hhead comma rfl)), hp]
  | case3 ts hts =>
    refine ⟨past, le_rfl, rfl, ?_⟩
    rcases ts with _ | ⟨t, _ | ⟨u, ts⟩⟩
    · exact fun _ => hp []
    · intro hhead
      by_cases hcomma : t.kind = .comma
      · rw [misfit_of_step (hcommaStep hcomma), misfit_nil, giveBack_separator (.inl hcomma)]
      · rw [misfit_of_stuck (step_moreNames_eq_none hcomma (hhead t rfl)), hp]
    · exact absurd rfl (hts t u ts)

theorem step_names_eq_none (hid : k ≠ .identifier) (hclose : k ≠ close.kind) :
    Stack.step (.names close :: st) k = none := by
  cases close <;> cases k <;> simp_all [Stack.step, Frame.step, Closer.kind]

theorem readsAlong_names (reading : Construct) (hp : Quiet past) (ts : List Token) :
    ReadsAlong past (.names close :: st) ts (fun past _ => Quiet past) id st
      (Parser.expect reading close.kind (Parser.names ts).2) := by
  have hk : close.kind ∉ [TokenKind.identifier, .comma, .bar] := by cases close <;> decide
  have hnames : ∃ past' f, (Parser.names ts).2.length ≤ ts.length ∧
      f.step close.kind = some [] ∧ Halts (· = close.kind) (f :: st) past' (Parser.names ts).2 ∧
      misfit past (.names close :: st) ts = misfit past' (f :: st) (Parser.names ts).2 := by
    have hclose : (Frame.names close).step close.kind = some [] := by cases close <;> rfl
    cases ts with
    | nil => exact ⟨past, .names close, le_rfl, hclose, fun _ => hp [], rfl⟩
    | cons name ts =>
      by_cases hid : name.kind = .identifier
      · have hquiet : Quiet ((name, false) :: past) := quiet_of_identifier hid
        obtain ⟨past', hlength, hmisfit, hhalts⟩ := misfit_moreNames hquiet ts
        have hstep : Stack.step (.names close :: st) name.kind = some (.moreNames close :: st) := by
          rw [hid]
          rfl
        rw [Parser.names, if_pos hid]
        refine ⟨past', .moreNames close, hlength.trans (Nat.le_add_right _ 1),
          by cases close <;> rfl, hhalts, ?_⟩
        rw [misfit_of_step hstep]
        exact hmisfit
      · rw [Parser.names, if_neg hid]
        exact ⟨past, .names close, le_rfl, hclose,
          hp.halts fun t ht => by cases ht; exact step_names_eq_none hid, rfl⟩
  obtain ⟨past', f, hlength, hclose, hhalts, hmisfit⟩ := hnames
  exact (readsAlong_expect reading hclose hk hhalts).of_misfit hmisfit hlength

end names

section binders

theorem step_binder_eq_none (h : k ≠ .identifier) : Stack.step (.binder :: st) k = none := by
  cases k <;> simp_all [Stack.step, Frame.step]

theorem step_hintName_eq_none (h : k ≠ .identifier) : Stack.step (.hintName :: st) k = none := by
  cases k <;> simp_all [Stack.step, Frame.step]

theorem step_moreBinders_eq_none (hcomma : k ≠ .comma) (hright : k ≠ .rightParen) :
    Stack.step (.moreBinders :: st) k = none := by
  cases k <;> simp_all [Stack.step, Frame.step]

/-- Without a hint a binder goes on as it does behind one. -/
theorem misfit_hint (h : ∀ t ∈ ts.head?, t.kind ≠ .colon) :
    misfit past (.hint :: st) ts = misfit past (.moreBinders :: st) ts := by
  cases ts with
  | nil => rfl
  | cons t ts =>
    have hcolon := h t rfl
    have hsame : Stack.step (.hint :: st) t.kind = Stack.step (.moreBinders :: st) t.kind := by
      cases hk : t.kind <;> simp_all [Stack.step, Frame.step]
    rw [misfit, misfit, hsame]
    rfl

theorem readsAlong_binder (h : Quiet past ∨ ∃ t ∈ ts.head?, t.kind = .identifier) :
    ReadsAlong past (.binder :: st) ts (fun past _ => Quiet past) Prod.snd (.moreBinders :: st)
      (Parser.binder ts) := by
  cases ts with
  | nil => exact (h.resolve_right (by simp) []).symm
  | cons t ts =>
    -- What is missing is the name or, behind a colon, the hint, and then nothing is given back.
    by_cases hid : t.kind = .identifier
    · have hstep : Stack.step (.binder :: st) t.kind = some (.hint :: st) := by
        rw [hid]
        rfl
      have hquiet : Quiet ((t, false) :: past) := quiet_of_identifier hid
      rw [Parser.binder, if_pos hid]
      cases ts with
      | nil => exact ⟨_, hquiet, Nat.zero_le _, (misfit_of_step hstep).trans rfl⟩
      | cons colon ts =>
        by_cases hcolon : colon.kind = .colon
        · have hcolonStep : Stack.step (.hint :: st) colon.kind = some (.hintName :: st) := by
            rw [hcolon]
            rfl
          have hquiet' : Quiet ((colon, false) :: (t, false) :: past) :=
            quiet_cons (by simp [hcolon])
          have hmisfit : misfit past (.binder :: st) (t :: colon :: ts) =
              misfit ((colon, false) :: (t, false) :: past) (.hintName :: st) ts := by
            rw [misfit_of_step hstep]
            exact misfit_of_step hcolonStep
          cases ts with
          | nil =>
            simp only [Parser.hint, hcolon, if_true]
            exact (hmisfit.trans (hquiet' [])).symm
          | cons u ts =>
            by_cases hu : u.kind = .identifier
            · have huStep : Stack.step (.hintName :: st) u.kind = some (.moreBinders :: st) := by
                rw [hu]
                rfl
              simp only [Parser.hint, hcolon, hu, if_true]
              exact ⟨_, quiet_of_identifier hu, Nat.le_add_right _ 3,
                hmisfit.trans (misfit_of_step huStep)⟩
            · simp only [Parser.hint, hcolon, hu, if_true, if_false]
              refine Eq.symm (hmisfit.trans ?_)
              rw [misfit_of_stuck (step_hintName_eq_none hu), hquiet']
        · simp only [Parser.hint, hcolon, if_false]
          refine ⟨_, hquiet, Nat.le_add_right _ 1, (misfit_of_step hstep).trans ?_⟩
          exact misfit_hint fun u hu => by cases hu; exact hcolon
    · have hquiet : Quiet past := h.resolve_right (by simpa using hid)
      rw [Parser.binder, if_neg hid]
      refine Eq.symm ?_
      rw [misfit_of_stuck (step_binder_eq_none hid), hquiet]

/-- A comma is given back if no binder follows it. -/
theorem readsAlong_moreBinders {n : Nat} (hn : ts.length ≤ n) (hp : Quiet past) :
    ReadsAlong past (.moreBinders :: st) ts
      (fun past rest => Halts (· = .rightParen) (.moreBinders :: st) past rest) Prod.snd
      (.moreBinders :: st) (Parser.moreBinders n ts) := by
  have hcommaStep : ∀ {t : Token}, t.kind = .comma →
      Stack.step (.moreBinders :: st) t.kind = some (.binder :: st) := by
    intro t ht
    rw [ht]
    rfl
  induction n generalizing past ts with
  | zero =>
    obtain rfl := List.length_eq_zero_iff.mp (Nat.le_zero.mp hn)
    exact ⟨past, fun _ => hp [], le_rfl, rfl⟩
  | succ n ih =>
    rcases ts with _ | ⟨comma, _ | ⟨t, ts⟩⟩
    · exact ⟨past, fun _ => hp [], le_rfl, rfl⟩
    · refine ⟨past, fun hhead => ?_, le_rfl, rfl⟩
      by_cases hcomma : comma.kind = .comma
      · have hstep := hcommaStep hcomma
        dsimp only
        rw [misfit_of_step hstep, misfit_nil, giveBack_separator (.inl hcomma)]
      · have hstuck : Stack.step (.moreBinders :: st) comma.kind = none :=
          step_moreBinders_eq_none hcomma (hhead comma rfl)
        dsimp only
        rw [misfit_of_stuck hstuck, hp]
    · rw [Parser.moreBinders]
      split
      · next hk =>
        have hbinder : ReadsAlong ((comma, false) :: past) (.binder :: st) (t :: ts)
            (fun past _ => Quiet past) Prod.snd (.moreBinders :: st) (Parser.binder (t :: ts)) :=
          readsAlong_binder (.inr ⟨t, rfl, hk.2⟩)
        refine .of_misfit (misfit_of_step (hcommaStep hk.1)) (Nat.le_succ _) ?_
        refine hbinder.bind fun r past' hquiet hlength => ?_
        have hn' : r.2.length ≤ n := hlength.trans (Nat.le_of_succ_le_succ hn)
        exact (ih hn' hquiet).bind fun r' past'' hhalts _ => ⟨past'', hhalts, le_rfl, rfl⟩
      · next hk =>
        refine ⟨past, fun hhead => ?_, le_rfl, rfl⟩
        dsimp only
        by_cases hcomma : comma.kind = .comma
        · have hstuck : Stack.step (.binder :: st) t.kind = none :=
            step_binder_eq_none fun ht => hk ⟨hcomma, ht⟩
          rw [misfit_of_step (hcommaStep hcomma), misfit_of_stuck hstuck,
            giveBack_separator (.inl hcomma)]
        · rw [misfit_of_stuck (step_moreBinders_eq_none hcomma (hhead comma rfl)), hp]

end binders

/-- Whether a stack goes on with a bar, and otherwise only with what closes. -/
structure Composing (closes : TokenKind → Prop) (st : Stack) : Prop where
  bar : st.step .bar = some (.atom :: st)
  begins : st.begins .bar = false
  other : ∀ k, k ≠ .bar → ¬ closes k → st.step k = none

theorem composing_nil : Composing (fun _ => False) [] := by
  refine ⟨rfl, rfl, fun k hk _ => ?_⟩
  cases k <;> first | rfl | exact absurd rfl hk

theorem composing_bars (st : Stack) : Composing (· = .rightParen) (.bars :: st) := by
  refine ⟨rfl, rfl, fun k hk hclose => ?_⟩
  cases k <;> first | rfl | exact absurd rfl hk | exact absurd rfl hclose

/-- Behind a component nothing goes on but a bar with an atom behind it, or what closes. -/
theorem Composing.halts {closes : TokenKind → Prop} (h : Composing closes st) (hp : Quiet past)
    (hbar : ∀ bar ts', ts = bar :: ts' → bar.kind = .bar → Parser.opening? ts' = none) :
    Halts closes st past ts := by
  intro hhead
  cases ts with
  | nil => exact hp []
  | cons t ts =>
    by_cases ht : t.kind = .bar
    · have hstep : st.step t.kind = some (.atom :: st) := by rw [ht, h.bar]
      rw [misfit_of_step hstep, ht, h.begins,
        misfit_of_not_opening (hbar t ts rfl ht) (.inr ⟨t, past, rfl, ht⟩),
        giveBack_separator (.inr ht)]
    · rw [misfit_of_stuck (h.other _ ht (hhead t rfl)), hp]

/-- An opened parenthesis without the keyword stands before a composition. -/
theorem misfit_opened (h : ∀ t ∈ ts.head?, t.kind ≠ .new) :
    misfit past (.opened :: st) ts = misfit past (.atom :: .bars :: st) ts := by
  cases ts with
  | nil => rfl
  | cons t ts =>
    have hnew := h t rfl
    have hsame : Stack.step (.opened :: st) t.kind = Stack.step (.atom :: .bars :: st) t.kind := by
      rw [Stack.step, Stack.step, Frame.step, Frame.step, if_neg hnew, Option.map_map]
      congr 1
      funext fs
      simp
    have hbegins : Stack.begins (.opened :: st) t.kind =
        Stack.begins (.atom :: .bars :: st) t.kind := by
      simp [Stack.begins, Frame.begins, hnew]
    rw [misfit, misfit, hsame, hbegins]

/-- Whether what is read with a bound on the nesting goes along. -/
structure GoesAlong (n : Nat) : Prop where
  atom : ∀ {past : Past} {st : Stack} {ts : List Token}, 2 * ts.length + 1 ≤ n →
    (Quiet past ∨ (Parser.opening? ts).isSome) →
    ReadsAlong past (.atom :: st) ts (fun past _ => Quiet past) Prod.snd st (Parser.atom n ts)
  composition : ∀ {closes : TokenKind → Prop} {past : Past} {st : Stack} {ts : List Token},
    2 * ts.length + 2 ≤ n → Composing closes st → Quiet past →
    ReadsAlong past (.atom :: st) ts (fun past rest => Halts closes st past rest) Prod.snd st
      (Parser.composition n ts)
  beside : ∀ {closes : TokenKind → Prop} {past : Past} {st : Stack} {left : Process Occurrence}
    {ts : List Token}, 2 * ts.length ≤ n → Composing closes st → Quiet past →
    ReadsAlong past st ts (fun past rest => Halts closes st past rest) Prod.snd st
      (Parser.beside n left ts)

namespace GoesAlong

variable {n : Nat} {closes : TokenKind → Prop}

theorem beside_succ (ih : GoesAlong n) {left : Process Occurrence} (hn : 2 * ts.length ≤ n + 1)
    (hst : Composing closes st) (hp : Quiet past) :
    ReadsAlong past st ts (fun past rest => Halts closes st past rest) Prod.snd st
      (Parser.beside (n + 1) left ts) := by
  cases ts with
  | nil => exact ⟨past, fun _ => hp [], le_rfl, rfl⟩
  | cons bar ts =>
    rw [List.length_cons] at hn
    rw [Parser.beside]
    split
    · next hbar =>
      have hstep : st.step bar.kind = some (.atom :: st) := by rw [hbar.1, hst.bar]
      refine .of_misfit (misfit_of_step hstep) (Nat.le_succ _) ?_
      refine (ih.atom (by omega) (.inr hbar.2)).bind fun r past' hquiet hlength => ?_
      exact ih.beside (by omega) hst hquiet
    · next hbar =>
      refine ⟨past, hst.halts hp fun bar' ts' heq hk => ?_, le_rfl, rfl⟩
      cases heq
      simpa [hk] using hbar

theorem composition_succ (ih : GoesAlong n) (hn : 2 * ts.length + 2 ≤ n + 1)
    (hst : Composing closes st) (hp : Quiet past) :
    ReadsAlong past (.atom :: st) ts (fun past rest => Halts closes st past rest) Prod.snd st
      (Parser.composition (n + 1) ts) := by
  rw [Parser.composition]
  refine (ih.atom (by omega) (.inl hp)).bind fun r past' hquiet hlength => ?_
  exact ih.beside (by omega) hst hquiet

theorem ne_new_of_opening?_group {ts rest : List Token}
    (h : Parser.opening? ts = some (.group, rest)) : ∀ t ∈ rest.head?, t.kind ≠ .new := by
  obtain ⟨⟨left, hleft⟩, rfl⟩ := of_opening? h
  cases rest with
  | nil => simp
  | cons next rest =>
    simp only [Parser.opening?, hleft] at h
    split at h
    · cases h
    · next hnew => simpa using hnew

theorem step_dot_eq_none (h : k ≠ .dot) : Stack.step (.dot :: st) k = none := by
  cases k <;> simp_all [Stack.step, Frame.step]

theorem atom_succ (ih : GoesAlong n) (hn : 2 * ts.length + 1 ≤ n + 1)
    (hp : Quiet past ∨ (Parser.opening? ts).isSome) :
    ReadsAlong past (.atom :: st) ts (fun past _ => Quiet past) Prod.snd st
      (Parser.atom (n + 1) ts) := by
  rw [Parser.atom]
  -- The cases are the openings, in the order of the reader.
  split
  · next ho =>
    have hquiet : Quiet past := hp.resolve_right (by simp [ho])
    exact ((misfit_of_not_opening ho (.inl hquiet)).trans (hquiet ts)).symm
  · next rest ho =>
    obtain ⟨⟨zero, hzero⟩, rfl⟩ := of_opening? ho
    have hstep : Stack.step (.atom :: st) zero.kind = some st := by rw [hzero]; rfl
    exact ⟨_, quiet_cons (by simp [hzero]), Nat.le_succ _, misfit_of_step hstep⟩
  · next rest ho =>
    obtain ⟨⟨bang, hbang⟩, rfl⟩ := of_opening? ho
    rw [List.length_cons] at hn
    have hstep : Stack.step (.atom :: st) bang.kind = some (.atom :: st) := by rw [hbang]; rfl
    have hquiet : Quiet ((bang, true) :: past) := quiet_cons (by simp [hbang])
    refine .of_misfit (misfit_of_step hstep) (Nat.le_succ _) ?_
    refine (ih.atom (by omega) (.inl hquiet)).bind fun r past' hquiet' _ => ?_
    exact ⟨past', hquiet', le_rfl, rfl⟩
  · next rest ho =>
    obtain ⟨⟨left, hleft⟩, ⟨new, hnew⟩, rfl⟩ := of_opening? ho
    rw [List.length_cons, List.length_cons] at hn
    have hstep : Stack.step (.atom :: st) left.kind = some (.opened :: st) := by rw [hleft]; rfl
    have hstep' : Stack.step (.opened :: st) new.kind = some (.binder :: .atom :: st) := by
      rw [hnew]
      rfl
    have hmisfit : misfit past (.atom :: st) (left :: new :: rest) =
        misfit ((new, false) :: (left, true) :: past) (.binder :: .atom :: st) rest := by
      rw [misfit_of_step hstep, misfit_of_step hstep', hnew]
      rfl
    have hquiet : Quiet ((new, false) :: (left, true) :: past) := quiet_cons (by simp [hnew])
    refine .of_misfit hmisfit (Nat.le_add_right _ 2) ?_
    refine (readsAlong_binder (.inl hquiet)).bind fun r past₁ hquiet₁ hlength₁ => ?_
    refine (readsAlong_moreBinders (by omega) hquiet₁).bind fun r₂ past₂ hhalts hlength₂ => ?_
    refine (readsAlong_expect .restriction rfl (by decide) hhalts).bind
      fun rest₃ past₃ hquiet₃ hlength₃ => ?_
    have hrest : rest₃.length ≤ rest.length := hlength₃.trans (hlength₂.trans hlength₁)
    refine (ih.atom (by rw [id]; omega) (.inl hquiet₃)).bind fun body past₄ hquiet₄ _ => ?_
    exact ⟨past₄, hquiet₄, le_rfl, rfl⟩
  · next rest ho =>
    have hhead := ne_new_of_opening?_group ho
    obtain ⟨⟨left, hleft⟩, rfl⟩ := of_opening? ho
    rw [List.length_cons] at hn
    have hstep : Stack.step (.atom :: st) left.kind = some (.opened :: st) := by rw [hleft]; rfl
    have hquiet : Quiet ((left, true) :: past) := quiet_cons (by simp [hleft])
    refine .of_misfit ((misfit_of_step hstep).trans (misfit_opened hhead)) (Nat.le_succ _) ?_
    refine (ih.composition (by omega) (composing_bars st) hquiet).bind fun r past' hhalts _ => ?_
    refine (readsAlong_expect .process rfl (by decide) hhalts).bind fun rest' past'' hquiet' _ => ?_
    exact ⟨past'', hquiet', le_rfl, rfl⟩
  · next chan rest ho =>
    obtain ⟨⟨name, hid⟩, ⟨less, hless⟩, rfl, -⟩ := of_opening? ho
    have hstep : Stack.step (.atom :: st) name.kind = some (.named :: st) := by rw [hid]; rfl
    have hstep' : Stack.step (.named :: st) less.kind = some (.names .angle :: st) := by
      rw [hless]
      rfl
    have hmisfit : misfit past (.atom :: st) (name :: less :: rest) =
        misfit ((less, false) :: (name, true) :: past) (.names .angle :: st) rest := by
      rw [misfit_of_step hstep, misfit_of_step hstep']
      rfl
    have hquiet : Quiet ((less, false) :: (name, true) :: past) := quiet_cons (by simp [hless])
    refine .of_misfit hmisfit (Nat.le_add_right _ 2) ?_
    refine (readsAlong_names .send hquiet rest).bind fun rest₁ past₁ hquiet₁ _ => ?_
    exact ⟨past₁, hquiet₁, le_rfl, rfl⟩
  · next chan rest ho =>
    obtain ⟨⟨name, hid⟩, ⟨left, hleft⟩, rfl, -⟩ := of_opening? ho
    rw [List.length_cons, List.length_cons] at hn
    have hstep : Stack.step (.atom :: st) name.kind = some (.named :: st) := by rw [hid]; rfl
    have hstep' : Stack.step (.named :: st) left.kind =
        some (.names .paren :: .dot :: .atom :: st) := by
      rw [hleft]
      rfl
    have hmisfit : misfit past (.atom :: st) (name :: left :: rest) =
        misfit ((left, false) :: (name, true) :: past) (.names .paren :: .dot :: .atom :: st)
          rest := by
      rw [misfit_of_step hstep, misfit_of_step hstep']
      rfl
    have hquiet : Quiet ((left, false) :: (name, true) :: past) := quiet_cons (by simp [hleft])
    refine .of_misfit hmisfit (Nat.le_add_right _ 2) ?_
    refine (readsAlong_names .receive hquiet rest).bind fun rest₁ past₁ hquiet₁ hlength₁ => ?_
    have hhalts : Halts (· = .dot) (.dot :: .atom :: st) past₁ rest₁ :=
      hquiet₁.halts fun t _ ht => step_dot_eq_none ht
    refine (readsAlong_expect .receive rfl (by decide) hhalts).bind
      fun rest₂ past₂ hquiet₂ hlength₂ => ?_
    have hrest : rest₂.length ≤ rest.length := hlength₂.trans hlength₁
    refine (ih.atom (by rw [id]; omega) (.inl hquiet₂)).bind fun body past₃ hquiet₃ _ => ?_
    exact ⟨past₃, hquiet₃, le_rfl, rfl⟩

end GoesAlong

theorem goesAlong (n : Nat) : GoesAlong n := by
  induction n with
  | zero =>
    refine ⟨fun hn => by omega, fun hn => by omega, fun {closes past st left ts} hn _ hp => ?_⟩
    obtain rfl : ts = [] := List.length_eq_zero_iff.mp (by omega)
    exact ⟨past, fun _ => hp [], le_rfl, rfl⟩
  | succ n ih => exact ⟨ih.atom_succ, ih.composition_succ, ih.beside_succ⟩

theorem misfit_of_all {e : Misfit} (h : Parser.all ts = .error e) :
    e.rest = misfit [] .whole ts := by
  have hread : ReadsAlong [] .whole ts (fun past rest => Halts (fun _ => False) [] past rest)
      Prod.snd [] (Parser.composition (2 * ts.length + 2) ts) :=
    (goesAlong _).composition le_rfl composing_nil quiet_nil
  rw [Parser.all] at h
  split at h
  · next heq =>
    cases h
    rw [heq] at hread
    exact hread
  · cases h
  · next p rest _ heq =>
    cases h
    rw [heq] at hread
    obtain ⟨past, hhalts, -, hmisfit⟩ := hread
    exact (hmisfit.trans (hhalts fun _ _ => id)).symm

end PiCalculus.Grammar
