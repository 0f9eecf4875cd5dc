import Mathlib
import PiCalculus.Proofs.Text.Parsing

/-! Which lists of kinds begin a sentence. What may follow a list of kinds depends on a stack of what
has been begun and not ended, and every kind that may come next leads to one stack only. Whatever
is on the stack can be ended, so a list begins a sentence as long as each of its kinds may come next. -/

namespace PiCalculus.Grammar

/-- A kind with the mark of what begins an atom. -/
abbrev Marked := TokenKind × Bool

section marked

variable {T : TokenKind → Type}

/-- The kinds of leaves of which none begins an atom. -/
def plain (ls : List (Leaf T)) : List Marked := ls.map fun l => (l.1, false)

mutual

/-- The kinds of the terminals that are derived, with those marked that begin an atom. -/
def Atom.marked : Atom T → List Marked
  | .nil _ => [(.nil, true)]
  | .replicate _ body => (.bang, true) :: body.marked
  | .restrict _ _ binders _ body =>
    (.leftParen, true) :: (.new, false) ::
      (plain (binders.leaves Binder.leaves) ++ (.rightParen, false) :: body.marked)
  | .send _ _ values _ =>
    (.identifier, true) :: (.less, false) :: (plain values.leaves ++ [(.greater, false)])
  | .receive _ _ vars _ _ body =>
    (.identifier, true) :: (.leftParen, false) ::
      (plain vars.leaves ++ (.rightParen, false) :: (.dot, false) :: body.marked)
  | .group _ inside _ => (.leftParen, true) :: (inside.marked ++ [(.rightParen, false)])

def Composition.marked : Composition T → List Marked
  | .mk first more => first.marked ++ more.marked

def Bars.marked : Bars T → List Marked
  | .none => []
  | .more _ next rest => (.bar, false) :: (next.marked ++ rest.marked)

end

theorem plain_map_fst (ls : List (Leaf T)) : (plain ls).map Prod.fst = ls.map (·.1) := by
  rw [plain, List.map_map]
  rfl

mutual

theorem Atom.marked_map_fst (a : Atom T) : a.marked.map Prod.fst = a.leaves.map (·.1) := by
  cases a with
  | nil zero => rfl
  | replicate bang body => simp [Atom.marked, Atom.leaves, leaf, Atom.marked_map_fst body]
  | restrict left new binders right body =>
    simp [Atom.marked, Atom.leaves, leaf, plain_map_fst, Atom.marked_map_fst body]
  | send chan less values greater => simp [Atom.marked, Atom.leaves, leaf, plain_map_fst]
  | receive chan left vars right dot body =>
    simp [Atom.marked, Atom.leaves, leaf, plain_map_fst, Atom.marked_map_fst body]
  | group left inside right =>
    simp [Atom.marked, Atom.leaves, leaf, Composition.marked_map_fst inside]

theorem Composition.marked_map_fst (c : Composition T) :
    c.marked.map Prod.fst = c.leaves.map (·.1) := by
  obtain ⟨first, more⟩ := c
  simp [Composition.marked, Composition.leaves, Atom.marked_map_fst first,
    Bars.marked_map_fst more]

theorem Bars.marked_map_fst (c : Bars T) : c.marked.map Prod.fst = c.leaves.map (·.1) := by
  cases c with
  | none => rfl
  | more bar next rest =>
    simp [Bars.marked, Bars.leaves, leaf, Atom.marked_map_fst next, Bars.marked_map_fst rest]

end

end marked

/-- Whether a sentence begins with a list of kinds. -/
def Viable (ks : List TokenKind) : Prop := ∃ d : Derivation, ks <+: d.kinds

/-- Whether in a sentence an atom begins with a kind after others. -/
def BeginsAtom (before : List TokenKind) (k : TokenKind) : Prop :=
  ∃ (d : Derivation) (ms rest : List Marked),
    d.marked = ms ++ (k, true) :: rest ∧ ms.map Prod.fst = before

/-- What closes a list of names. -/
inductive Closer
  | angle | paren

def Closer.kind : Closer → TokenKind
  | angle => .greater
  | paren => .rightParen

/-- What has been begun, by what may come next of it. What stands in parentheses or between angles
ends with what closes it. -/
inductive Frame
  | atom
  /-- Behind the parenthesis with which an atom begins. -/
  | opened
  /-- Behind the identifier with which an atom begins. -/
  | named
  | bars
  | names (close : Closer)
  | name (close : Closer)
  | moreNames (close : Closer)
  | dot
  | binder
  /-- Behind the name of a binder. -/
  | hint
  | hintName
  | moreBinders

namespace Frame

/-- What is left of an atom behind the kind with which it begins. -/
def begun : TokenKind → Option (List Frame)
  | .nil => some []
  | .bang => some [atom]
  | .leftParen => some [opened]
  | .identifier => some [named]
  | _ => none

/-- What a kind leaves to be ended in the place of a frame, if it may come next. -/
@[grind =] def step : Frame → TokenKind → Option (List Frame)
  | atom, k => begun k
  | opened, k => if k = .new then some [binder, atom] else (begun k).map (· ++ [bars])
  | named, .less => some [names .angle]
  | named, .leftParen => some [names .paren, dot, atom]
  | bars, .bar => some [atom, bars]
  | bars, .rightParen => some []
  | names close, .identifier => some [moreNames close]
  | names close, k => if k = close.kind then some [] else none
  | name close, .identifier => some [moreNames close]
  | moreNames close, .comma => some [name close]
  | moreNames close, k => if k = close.kind then some [] else none
  | dot, .dot => some []
  | binder, .identifier => some [hint]
  | hint, .colon => some [hintName]
  | hint, .comma => some [binder]
  | hint, .rightParen => some []
  | hintName, .identifier => some [moreBinders]
  | moreBinders, .comma => some [binder]
  | moreBinders, .rightParen => some []
  | _, _ => none

/-- Whether an atom begins with the kind that comes next. -/
def begins : Frame → TokenKind → Bool
  | atom, _ => true
  | opened, k => k ≠ .new
  | _, _ => false

/-- What may follow until a frame is ended. -/
def language : Frame → Language Marked
  | atom => Set.range (Atom.marked (T := fun _ => Unit))
  | opened => {l | ∃ a : Atom fun _ => Unit, a.marked = (.leftParen, true) :: l}
  | named => {l | ∃ a : Atom fun _ => Unit, a.marked = (.identifier, true) :: l}
  | bars => {l | ∃ c : Bars fun _ => Unit, l = c.marked ++ [(.rightParen, false)]}
  | names close => {l | ∃ ns : Names fun _ => Unit, l = plain ns.leaves ++ [(close.kind, false)]}
  | name close =>
    {l | ∃ more : List (Unit × Unit), l = (.identifier, false) ::
      (plain (moreLeaves (T := fun _ => Unit) nameLeaves more) ++ [(close.kind, false)])}
  | moreNames close =>
    {l | ∃ more : List (Unit × Unit),
      l = plain (moreLeaves (T := fun _ => Unit) nameLeaves more) ++ [(close.kind, false)]}
  | dot => {[(.dot, false)]}
  | binder =>
    {l | ∃ bs : Separated (fun _ => Unit) (Binder fun _ => Unit),
      l = plain (bs.leaves Binder.leaves) ++ [(.rightParen, false)]}
  | hint =>
    {l | ∃ bs : Separated (fun _ => Unit) (Binder fun _ => Unit),
      (.identifier, false) :: l = plain (bs.leaves Binder.leaves) ++ [(.rightParen, false)]}
  | hintName =>
    {l | ∃ more : List (Unit × Binder fun _ => Unit), l = (.identifier, false) ::
      (plain (moreLeaves (T := fun _ => Unit) Binder.leaves more) ++ [(.rightParen, false)])}
  | moreBinders =>
    {l | ∃ more : List (Unit × Binder fun _ => Unit),
      l = plain (moreLeaves (T := fun _ => Unit) Binder.leaves more) ++ [(.rightParen, false)]}

/-- What may follow until all of a stack is ended. -/
def ending (st : List Frame) : Language Marked := (st.map language).prod

theorem ending_nil : ending [] = 1 := rfl

theorem ending_cons (f : Frame) (st : List Frame) : ending (f :: st) = f.language * ending st := by
  rw [ending, List.map_cons, List.prod_cons, ending]

theorem ending_append (st st' : List Frame) : ending (st ++ st') = ending st * ending st' := by
  rw [ending, List.map_append, List.prod_append, ending, ending]

theorem ending_singleton (f : Frame) : ending [f] = f.language := by
  rw [ending_cons, ending_nil, mul_one]

variable {f : Frame} {k : TokenKind} {st : List Frame} {l : List Marked}

theorem mem_atom_of_begun (h : begun k = some st) (hl : l ∈ ending st) :
    (k, true) :: l ∈ atom.language := by
  cases k with
  | nil =>
    cases h
    obtain rfl : l = [] := hl
    exact ⟨.nil (), rfl⟩
  | bang =>
    cases h
    rw [ending_singleton] at hl
    obtain ⟨a, rfl⟩ := hl
    exact ⟨.replicate () a, rfl⟩
  | leftParen =>
    cases h
    rwa [ending_singleton] at hl
  | identifier =>
    cases h
    rwa [ending_singleton] at hl
  | _ => cases h

theorem mem_opened_of_step (h : opened.step k = some st) (hl : l ∈ ending st) :
    (k, opened.begins k) :: l ∈ opened.language := by
  rw [step] at h
  split at h
  · next hnew =>
    subst hnew
    cases h
    rw [ending_cons, ending_singleton] at hl
    obtain ⟨-, ⟨bs, rfl⟩, -, ⟨body, rfl⟩, rfl⟩ := hl
    refine ⟨.restrict () () bs () body, ?_⟩
    simp [Atom.marked, begins]
  · next hnew =>
    obtain ⟨st, hbegun, rfl⟩ := Option.map_eq_some_iff.mp h
    rw [ending_append, ending_singleton] at hl
    obtain ⟨first, hfirst, -, ⟨more, rfl⟩, rfl⟩ := hl
    obtain ⟨a, ha⟩ := mem_atom_of_begun hbegun hfirst
    refine ⟨.group () (.mk a more) (), ?_⟩
    simp [Atom.marked, Composition.marked, ha, begins, hnew]

theorem mem_named_of_step (h : named.step k = some st) (hl : l ∈ ending st) :
    (k, false) :: l ∈ named.language := by
  cases k with
  | less =>
    cases h
    rw [ending_singleton] at hl
    obtain ⟨values, rfl⟩ := hl
    exact ⟨.send () () values (), rfl⟩
  | leftParen =>
    cases h
    rw [ending_cons, ending_cons, ending_singleton] at hl
    obtain ⟨-, ⟨vars, rfl⟩, -, ⟨-, rfl, -, ⟨body, rfl⟩, rfl⟩, rfl⟩ := hl
    refine ⟨.receive () () vars () () body, ?_⟩
    simp [Atom.marked, Closer.kind]
  | _ => cases h

theorem mem_names_of_step {close : Closer} (h : (names close).step k = some st)
    (hl : l ∈ ending st) : (k, false) :: l ∈ (names close).language := by
  cases k with
  | identifier =>
    cases h
    rw [ending_singleton] at hl
    obtain ⟨more, rfl⟩ := hl
    exact ⟨some ⟨(), more⟩, rfl⟩
  | _ => cases close <;> cases h <;> exact ⟨none, congrArg _ hl⟩

theorem mem_moreNames_of_step {close : Closer} (h : (moreNames close).step k = some st)
    (hl : l ∈ ending st) : (k, false) :: l ∈ (moreNames close).language := by
  cases k with
  | comma =>
    cases h
    rw [ending_singleton] at hl
    obtain ⟨more, rfl⟩ := hl
    exact ⟨((), ()) :: more, rfl⟩
  | _ => cases close <;> cases h <;> exact ⟨[], congrArg _ hl⟩

theorem mem_hint_of_step (h : hint.step k = some st) (hl : l ∈ ending st) :
    (k, false) :: l ∈ hint.language := by
  cases k with
  | colon =>
    cases h
    rw [ending_singleton] at hl
    obtain ⟨more, rfl⟩ := hl
    exact ⟨⟨⟨(), some ((), ())⟩, more⟩, rfl⟩
  | comma =>
    cases h
    rw [ending_singleton] at hl
    obtain ⟨bs, rfl⟩ := hl
    exact ⟨⟨⟨(), none⟩, ((), bs.first) :: bs.more⟩, rfl⟩
  | rightParen =>
    cases h
    exact ⟨⟨⟨(), none⟩, []⟩, congrArg (fun l => _ :: _ :: l) hl⟩
  | _ => cases h

/-- What may come next may be followed by what it leaves to be ended. -/
theorem mem_language_of_step (h : f.step k = some st) (hl : l ∈ ending st) :
    (k, f.begins k) :: l ∈ f.language := by
  cases f with
  | atom => exact mem_atom_of_begun h hl
  | opened => exact mem_opened_of_step h hl
  | named => exact mem_named_of_step h hl
  | names close => exact mem_names_of_step h hl
  | moreNames close => exact mem_moreNames_of_step h hl
  | hint => exact mem_hint_of_step h hl
  | name close =>
    cases k <;> cases h
    rw [ending_singleton] at hl
    obtain ⟨more, rfl⟩ := hl
    exact ⟨more, rfl⟩
  | dot =>
    cases k <;> cases h
    exact congrArg _ hl
  | bars =>
    cases k with
    | bar =>
      cases h
      rw [ending_cons, ending_singleton] at hl
      obtain ⟨-, ⟨next, rfl⟩, -, ⟨rest, rfl⟩, rfl⟩ := hl
      refine ⟨.more () next rest, ?_⟩
      simp [Bars.marked, begins]
    | rightParen =>
      cases h
      exact ⟨.none, congrArg _ hl⟩
    | _ => cases h
  | binder =>
    cases k <;> cases h
    rw [ending_singleton] at hl
    exact hl
  | hintName =>
    cases k <;> cases h
    rw [ending_singleton] at hl
    obtain ⟨more, rfl⟩ := hl
    exact ⟨more, rfl⟩
  | moreBinders =>
    cases k with
    | comma =>
      cases h
      rw [ending_singleton] at hl
      obtain ⟨bs, rfl⟩ := hl
      exact ⟨((), bs.first) :: bs.more, rfl⟩
    | rightParen =>
      cases h
      exact ⟨[], congrArg _ hl⟩
    | _ => cases h

/-- What follows a frame begins with a kind that may come next, and goes on with what that leaves to
be ended. -/
def Unfolds (f : Frame) (l : List Marked) : Prop :=
  ∃ k st r, f.step k = some st ∧ r ∈ ending st ∧ l = (k, f.begins k) :: r

theorem Unfolds.of_singleton {g : Frame} (h : f.step k = some [g]) (hl : l ∈ g.language) :
    f.Unfolds ((k, f.begins k) :: l) :=
  ⟨k, [g], l, h, by rwa [ending_singleton], rfl⟩

theorem Unfolds.of_ended (h : f.step k = some []) : f.Unfolds [(k, f.begins k)] :=
  ⟨k, [], [], h, rfl, rfl⟩

theorem unfolds_atom (h : l ∈ atom.language) : atom.Unfolds l := by
  obtain ⟨a, rfl⟩ := h
  cases a with
  | nil zero => exact .of_ended rfl
  | replicate bang body => exact .of_singleton rfl ⟨body, rfl⟩
  | restrict left new binders right body =>
    exact .of_singleton (k := .leftParen) rfl ⟨.restrict left new binders right body, rfl⟩
  | send chan less values greater =>
    exact .of_singleton (k := .identifier) rfl ⟨.send chan less values greater, rfl⟩
  | receive chan left vars right dot body =>
    exact .of_singleton (k := .identifier) rfl ⟨.receive chan left vars right dot body, rfl⟩
  | group left inside right =>
    exact .of_singleton (k := .leftParen) rfl ⟨.group left inside right, rfl⟩

theorem unfolds_opened (h : l ∈ opened.language) : opened.Unfolds l := by
  obtain ⟨a, ha⟩ := h
  cases a with
  | restrict left new binders right body =>
    simp only [Atom.marked, List.cons.injEq, true_and] at ha
    subst ha
    refine ⟨.new, [binder, atom], _, rfl, ?_, rfl⟩
    rw [ending_cons, ending_singleton]
    exact ⟨_, ⟨binders, rfl⟩, _, ⟨body, rfl⟩, by simp⟩
  | group left inside right =>
    obtain ⟨first, more⟩ := inside
    simp only [Atom.marked, List.cons.injEq, true_and] at ha
    obtain ⟨k, st, r, hbegun, hr, hfirst⟩ := unfolds_atom ⟨first, rfl⟩
    have hnew : k ≠ .new := by
      rintro rfl
      cases hbegun
    subst ha
    refine ⟨k, st ++ [bars], r ++ (more.marked ++ [(.rightParen, false)]), ?_, ?_, ?_⟩
    · rw [step, if_neg hnew, show begun k = some st from hbegun, Option.map_some]
    · rw [ending_append, ending_singleton]
      exact ⟨r, hr, _, ⟨more, rfl⟩, rfl⟩
    · simp [Composition.marked, hfirst, begins, hnew]
  | _ => simp [Atom.marked] at ha

theorem unfolds_named (h : l ∈ named.language) : named.Unfolds l := by
  obtain ⟨a, ha⟩ := h
  cases a with
  | send chan less values greater =>
    simp only [Atom.marked, List.cons.injEq, true_and] at ha
    subst ha
    exact .of_singleton rfl ⟨values, rfl⟩
  | receive chan left vars right dot' body =>
    simp only [Atom.marked, List.cons.injEq, true_and] at ha
    subst ha
    refine ⟨.leftParen, [names .paren, dot, atom], _, rfl, ?_, rfl⟩
    rw [ending_cons, ending_cons, ending_singleton]
    exact ⟨_, ⟨vars, rfl⟩, _, ⟨[(.dot, false)], rfl, _, ⟨body, rfl⟩, rfl⟩, by simp [Closer.kind]⟩
  | _ => simp [Atom.marked] at ha

theorem unfolds_moreNames {close : Closer} (h : l ∈ (moreNames close).language) :
    (moreNames close).Unfolds l := by
  obtain ⟨more, rfl⟩ := h
  cases more with
  | nil => exact .of_ended (by cases close <;> rfl)
  | cons m more => exact .of_singleton rfl ⟨more, rfl⟩

theorem unfolds_names {close : Closer} (h : l ∈ (names close).language) :
    (names close).Unfolds l := by
  obtain ⟨ns, rfl⟩ := h
  cases ns with
  | none => exact .of_ended (by cases close <;> rfl)
  | some ns => exact .of_singleton rfl ⟨ns.more, rfl⟩

theorem unfolds_hint (h : l ∈ hint.language) : hint.Unfolds l := by
  obtain ⟨⟨⟨name, hint⟩, more⟩, hl⟩ := h
  cases hint with
  | some h =>
    obtain rfl := (List.cons.inj hl).2
    exact .of_singleton rfl ⟨more, rfl⟩
  | none =>
    obtain rfl := (List.cons.inj hl).2
    cases more with
    | nil => exact .of_ended rfl
    | cons m more => exact .of_singleton rfl ⟨⟨m.2, more⟩, rfl⟩

theorem unfolds (h : l ∈ f.language) : f.Unfolds l := by
  cases f with
  | atom => exact unfolds_atom h
  | opened => exact unfolds_opened h
  | named => exact unfolds_named h
  | names close => exact unfolds_names h
  | moreNames close => exact unfolds_moreNames h
  | hint => exact unfolds_hint h
  | name close =>
    obtain ⟨more, rfl⟩ := h
    exact .of_singleton rfl ⟨more, rfl⟩
  | dot =>
    obtain rfl := h
    exact .of_ended rfl
  | bars =>
    obtain ⟨c, rfl⟩ := h
    cases c with
    | none => exact .of_ended rfl
    | more bar next rest =>
      refine ⟨.bar, [atom, bars], _, rfl, ?_, rfl⟩
      rw [ending_cons, ending_singleton]
      exact ⟨_, ⟨next, rfl⟩, _, ⟨rest, rfl⟩, by simp⟩
  | binder =>
    obtain ⟨⟨⟨name, hint⟩, more⟩, rfl⟩ := h
    cases hint with
    | none => exact .of_singleton rfl ⟨⟨⟨name, none⟩, more⟩, rfl⟩
    | some h => exact .of_singleton rfl ⟨⟨⟨name, some h⟩, more⟩, rfl⟩
  | hintName =>
    obtain ⟨more, rfl⟩ := h
    exact .of_singleton rfl ⟨more, rfl⟩
  | moreBinders =>
    obtain ⟨more, rfl⟩ := h
    cases more with
    | nil => exact .of_ended rfl
    | cons m more => exact .of_singleton rfl ⟨⟨m.2, more⟩, rfl⟩

theorem language_nonempty (f : Frame) : ∃ l, l ∈ f.language := by
  cases f with
  | atom => exact ⟨_, .nil (), rfl⟩
  | opened => exact ⟨_, .group () (.mk (.nil ()) .none) (), rfl⟩
  | named => exact ⟨_, .send () () none (), rfl⟩
  | bars => exact ⟨_, .none, rfl⟩
  | names close => exact ⟨_, none, rfl⟩
  | name close => exact ⟨_, [], rfl⟩
  | moreNames close => exact ⟨_, [], rfl⟩
  | dot => exact ⟨_, rfl⟩
  | binder => exact ⟨_, ⟨⟨(), none⟩, []⟩, rfl⟩
  | hint => exact ⟨_, ⟨⟨(), none⟩, []⟩, rfl⟩
  | hintName => exact ⟨_, [], rfl⟩
  | moreBinders => exact ⟨_, [], rfl⟩

end Frame

/-- What has been begun and not ended in a sentence, the innermost first. At the bottom stand further
components of the whole. -/
abbrev Stack := List Frame

namespace Stack

/-- What a kind makes of a stack, if it may come next. -/
def step : Stack → TokenKind → Option Stack
  | [], .bar => some [.atom]
  | [], _ => none
  | f :: st, k => (f.step k).map (· ++ st)

/-- Whether an atom begins with the kind that comes next. -/
def begins : Stack → TokenKind → Bool
  | [], _ => false
  | f :: _, k => f.begins k

/-- What kinds make of a stack one after the other, if they may come next. -/
def run : Stack → List TokenKind → Option Stack
  | st, [] => some st
  | st, k :: ks => (st.step k).bind (·.run ks)

/-- Kinds with the marks that they get on the way. -/
def mark : Stack → List TokenKind → List Marked
  | _, [] => []
  | st, k :: ks => (k, st.begins k) :: ((st.step k).elim [] (·.mark ks))

/-- What further components of the whole may be. -/
def more : Language Marked := Set.range (Bars.marked (T := fun _ => Unit))

/-- What may follow until the sentence ends. -/
def language (st : Stack) : Language Marked := Frame.ending st * more

variable {st st' : Stack} {k : TokenKind} {b : Bool} {ks : List TokenKind} {l ms : List Marked}

theorem mem_language_cons : (k, b) :: l ∈ st.language ↔
    ∃ st', st.step k = some st' ∧ b = st.begins k ∧ l ∈ st'.language := by
  unfold language
  cases st with
  | nil =>
    rw [Frame.ending_nil, one_mul]
    constructor
    · rintro ⟨_ | ⟨bar, next, rest⟩, hc⟩
      · cases hc
      · cases hc
        refine ⟨[.atom], rfl, rfl, ?_⟩
        rw [Frame.ending_singleton]
        exact ⟨_, ⟨next, rfl⟩, _, ⟨rest, rfl⟩, rfl⟩
    · rintro ⟨st', hstep, rfl, hl⟩
      cases k <;> cases hstep
      rw [Frame.ending_singleton] at hl
      obtain ⟨-, ⟨next, rfl⟩, -, ⟨rest, rfl⟩, rfl⟩ := hl
      exact ⟨.more () next rest, rfl⟩
  | cons f st =>
    rw [Frame.ending_cons, mul_assoc]
    constructor
    -- The first token is one of the topmost frame, which is left with the frames that it unfolds
    -- to.
    · rintro ⟨first, hfirst, rest, hrest, hl⟩
      obtain ⟨k, fs, r, hstep, hr, rfl⟩ := Frame.unfolds hfirst
      cases hl
      refine ⟨fs ++ st, by rw [step, hstep, Option.map_some], rfl, ?_⟩
      rw [Frame.ending_append, mul_assoc]
      exact ⟨r, hr, rest, hrest, rfl⟩
    · rintro ⟨st', hstep, rfl, hl⟩
      obtain ⟨fs, hfs, rfl⟩ := Option.map_eq_some_iff.mp hstep
      rw [Frame.ending_append, mul_assoc] at hl
      obtain ⟨r, hr, rest, hrest, rfl⟩ := hl
      exact ⟨_, Frame.mem_language_of_step hfs hr, rest, hrest, rfl⟩

theorem language_nonempty (st : Stack) : ∃ l, l ∈ st.language := by
  have hending : ∀ st, ∃ l, l ∈ Frame.ending st := by
    intro st
    induction st with
    | nil => exact ⟨[], rfl⟩
    | cons f st ih =>
      obtain ⟨l, hl⟩ := f.language_nonempty
      obtain ⟨r, hr⟩ := ih
      exact ⟨l ++ r, by rw [Frame.ending_cons]; exact ⟨l, hl, r, hr, rfl⟩⟩
  obtain ⟨l, hl⟩ := hending st
  exact ⟨l ++ [], l, hl, [], ⟨.none, rfl⟩, rfl⟩

/-- The marks on the way are those of every sentence that goes on so. -/
theorem mem_language_append : ms ++ l ∈ st.language ↔
    ∃ st', st.run (ms.map Prod.fst) = some st' ∧ st.mark (ms.map Prod.fst) = ms ∧
      l ∈ st'.language := by
  induction ms generalizing st with
  | nil => simp [run, mark]
  | cons m ms ih =>
    obtain ⟨k, b⟩ := m
    simp only [List.cons_append, mem_language_cons, ih, List.map_cons, run, mark]
    cases hstep : st.step k with
    | none => simp
    | some st' => simp [eq_comm (a := b), and_left_comm, and_assoc]

theorem map_fst_mark (h : st.run ks = some st') : (st.mark ks).map Prod.fst = ks := by
  induction ks generalizing st with
  | nil => rfl
  | cons k ks ih =>
    obtain ⟨next, hstep, hrest⟩ := Option.bind_eq_some_iff.mp h
    rw [mark, hstep, List.map_cons, Option.elim_some, ih hrest]

theorem run_append (st : Stack) (ks ks' : List TokenKind) :
    st.run (ks ++ ks') = (st.run ks).bind (·.run ks') := by
  induction ks generalizing st with
  | nil => rfl
  | cons k ks ih =>
    rw [List.cons_append, run, run, Option.bind_assoc]
    simp only [ih]

theorem exists_mem_language (h : st.run ks = some st') :
    ∃ l, st.mark ks ++ l ∈ st.language := by
  obtain ⟨l, hl⟩ := st'.language_nonempty
  refine ⟨l, mem_language_append.mpr ⟨st', ?_, ?_, hl⟩⟩
  · rwa [map_fst_mark h]
  · rw [map_fst_mark h]

/-- What stands on the stack before a sentence. -/
def whole : Stack := [.atom]

theorem mem_language_whole : l ∈ whole.language ↔ ∃ d : Derivation, d.marked = l := by
  rw [whole, language, Frame.ending_singleton]
  constructor
  · rintro ⟨-, ⟨first, rfl⟩, -, ⟨more, rfl⟩, rfl⟩
    exact ⟨.mk first more, rfl⟩
  · rintro ⟨⟨first, more⟩, rfl⟩
    exact ⟨_, ⟨first, rfl⟩, _, ⟨more, rfl⟩, rfl⟩

end Stack

variable {ks before : List TokenKind} {k : TokenKind}

theorem viable_iff : Viable ks ↔ (Stack.whole.run ks).isSome := by
  rw [Option.isSome_iff_exists]
  constructor
  · rintro ⟨d, rest, hd⟩
    rw [Composition.kinds, ← Composition.marked_map_fst] at hd
    obtain ⟨ms, l, hl, rfl, -⟩ := List.append_eq_map_iff.mp hd
    have hmem : ms ++ l ∈ Stack.whole.language := Stack.mem_language_whole.mpr ⟨d, hl⟩
    obtain ⟨st, hst, -⟩ := Stack.mem_language_append.mp hmem
    exact ⟨st, hst⟩
  · rintro ⟨st, hst⟩
    obtain ⟨l, hl⟩ := Stack.exists_mem_language hst
    obtain ⟨d, hd⟩ := Stack.mem_language_whole.mp hl
    refine ⟨d, l.map Prod.fst, ?_⟩
    rw [Composition.kinds, ← Composition.marked_map_fst, hd, List.map_append,
      Stack.map_fst_mark hst]

theorem beginsAtom_iff : BeginsAtom before k ↔
    ∃ st, Stack.whole.run before = some st ∧ (st.step k).isSome ∧ st.begins k = true := by
  constructor
  · rintro ⟨d, ms, rest, hd, rfl⟩
    have hmem : ms ++ (k, true) :: rest ∈ Stack.whole.language :=
      Stack.mem_language_whole.mpr ⟨d, hd⟩
    obtain ⟨st, hst, -, hrest⟩ := Stack.mem_language_append.mp hmem
    obtain ⟨st', hstep, hbegins, -⟩ := Stack.mem_language_cons.mp hrest
    exact ⟨st, hst, Option.isSome_iff_exists.mpr ⟨st', hstep⟩, hbegins.symm⟩
  · rintro ⟨st, hst, hstep, hbegins⟩
    obtain ⟨st', hstep⟩ := Option.isSome_iff_exists.mp hstep
    -- Any way to end what is open makes a sentence of it, whose marks are those of the automaton.
    obtain ⟨l, hl⟩ := st'.language_nonempty
    have hmem : Stack.whole.mark before ++ (k, true) :: l ∈ Stack.whole.language := by
      refine Stack.mem_language_append.mpr ⟨st, ?_, ?_, ?_⟩
      · rwa [Stack.map_fst_mark hst]
      · rw [Stack.map_fst_mark hst]
      · exact Stack.mem_language_cons.mpr ⟨st', hstep, hbegins.symm, hl⟩
    obtain ⟨d, hd⟩ := Stack.mem_language_whole.mp hmem
    exact ⟨d, _, l, hd, Stack.map_fst_mark hst⟩

instance (ks : List TokenKind) : Decidable (Viable ks) := decidable_of_iff _ viable_iff.symm

instance (before : List TokenKind) (k : TokenKind) : Decidable (BeginsAtom before k) :=
  decidable_of_iff ((Stack.whole.run before).any fun st => (st.step k).isSome && st.begins k) <| by
    rw [beginsAtom_iff, Option.any_eq_true]
    simp only [Bool.and_eq_true]

end PiCalculus.Grammar
