import Mathlib
import PiCalculus.Proofs.Store.Loading
import PiCalculus.Proofs.Text.Meaning

/-! Reading follows the grammar. It succeeds exactly on what can be derived, and what it returns is
what the derivation stands for. -/

namespace PiCalculus

namespace Grammar

abbrev Terminal (k : TokenKind) := { t : Token // t.kind = k }

def Leaf.token (l : Leaf Terminal) : Token := l.2.val

@[simp]
theorem token_leaf {k : TokenKind} (t : Terminal k) : (leaf t).token = t.val := rfl

def Composition.tokens (d : Composition Terminal) : List Token := d.leaves.map Leaf.token

/-- A name as it is read, with its hint. -/
def occurrence (n : Terminal .identifier) (hint : Option (Terminal .identifier)) : Occurrence :=
  Parser.occurrence n.val (hint.map (·.val.raw))

/-- Whether the tokens that follow do not begin with one of some kinds. -/
def Ends (kinds : List TokenKind) (rest : List Token) : Prop := ∀ t ∈ rest.head?, t.kind ∉ kinds

theorem ends_nil (kinds : List TokenKind) : Ends kinds [] := by simp [Ends]

theorem ends_cons {kinds : List TokenKind} {t : Token} {rest : List Token} :
    Ends kinds (t :: rest) ↔ t.kind ∉ kinds := by
  simp [Ends]

theorem Ends.mono {kinds kinds' : List TokenKind} {rest : List Token} (h : Ends kinds rest)
    (hk : kinds' ⊆ kinds) : Ends kinds' rest :=
  fun t ht hm => h t ht (hk hm)

section complete

theorem moreNames_eq (more : List (Terminal .comma × Terminal .identifier)) {rest : List Token}
    (h : Ends [.comma] rest) :
    Parser.moreNames ((moreLeaves nameLeaves more).map Leaf.token ++ rest) =
      (more.map fun m => occurrence m.2 none, rest) := by
  induction more with
  | nil =>
    match rest with
    | [] => rfl
    | [t] => rfl
    | t :: u :: rest =>
      rw [ends_cons] at h
      simp only [moreLeaves, List.flatMap_nil, List.map_nil, List.nil_append, Parser.moreNames]
      rw [if_neg fun ht => h (by simp [ht.1])]
  | cons m more ih =>
    obtain ⟨⟨comma, hc⟩, ⟨name, hn⟩⟩ := m
    have hstep : (moreLeaves nameLeaves ((⟨comma, hc⟩, ⟨name, hn⟩) :: more)).map Leaf.token ++ rest =
        comma :: name :: ((moreLeaves nameLeaves more).map Leaf.token ++ rest) := by
      simp [moreLeaves, nameLeaves, leaf, Leaf.token]
    rw [hstep, Parser.moreNames, if_pos ⟨hc, hn⟩, ih]
    rfl

theorem names_eq (ns : Names Terminal) {rest : List Token} (h : Ends [.comma, .identifier] rest) :
    Parser.names (ns.leaves.map Leaf.token ++ rest) =
      (ns.elements.map (occurrence · none), rest) := by
  cases ns with
  | none =>
    cases rest with
    | nil => rfl
    | cons t rest =>
      rw [ends_cons] at h
      simp only [Names.leaves, List.map_nil, List.nil_append, Parser.names]
      rw [if_neg fun ht => h (by simp [ht])]
      rfl
  | some l =>
    obtain ⟨⟨name, hn⟩, more⟩ := l
    have hstep : (Names.leaves (some ⟨⟨name, hn⟩, more⟩)).map Leaf.token ++ rest =
        name :: ((moreLeaves nameLeaves more).map Leaf.token ++ rest) := by
      simp [Names.leaves, Separated.leaves, nameLeaves, leaf, Leaf.token]
    rw [hstep, Parser.names, if_pos hn, moreNames_eq more (h.mono (by simp))]
    simp only [Names.elements, Separated.elements, List.map_cons, List.map_map]
    rfl

theorem binder_eq (b : Binder Terminal) {rest : List Token} (h : Ends [.colon] rest) :
    Parser.binder (b.leaves.map Leaf.token ++ rest) = .ok (b.denote occurrence, rest) := by
  obtain ⟨⟨name, hn⟩, _ | ⟨⟨colon, hc⟩, ⟨hint, hh⟩⟩⟩ := b
  · have hhint : Parser.hint rest = .ok (none, rest) := by
      cases rest with
      | nil => rfl
      | cons t rest =>
        rw [ends_cons] at h
        have hk : t.kind ≠ .colon := fun ht => h (by simp [ht])
        simp [Parser.hint, hk]
    simp only [Binder.leaves, leaf, List.map_cons, List.map_nil, Leaf.token, List.cons_append,
      List.nil_append, Parser.binder, if_pos hn, hhint]
    rfl
  · simp only [Binder.leaves, leaf, List.map_cons, List.map_nil, Leaf.token, List.cons_append,
      List.nil_append, Parser.binder, if_pos hn, Parser.hint, if_pos hc, if_pos hh]
    rfl

theorem ends_moreLeaves {α : Type} {each : α → List (Leaf Terminal)}
    (more : List (Terminal .comma × α)) {rest : List Token} (h : Ends [.comma, .colon] rest) :
    Ends [.colon] ((moreLeaves each more).map Leaf.token ++ rest) := by
  cases more with
  | nil => exact h.mono (by simp)
  | cons m more =>
    obtain ⟨⟨comma, hc⟩, a⟩ := m
    simp [moreLeaves, leaf, Leaf.token, ends_cons, hc]

theorem moreBinders_eq (more : List (Terminal .comma × Binder Terminal)) {n : Nat}
    {rest : List Token} (hn : more.length ≤ n) (h : Ends [.comma, .colon] rest) :
    Parser.moreBinders n ((moreLeaves Binder.leaves more).map Leaf.token ++ rest) =
      .ok (more.map fun m => m.2.denote occurrence, rest) := by
  induction more generalizing n with
  | nil =>
    match n, rest with
    | 0, _ => rfl
    | n + 1, [] => rfl
    | n + 1, [t] => rfl
    | n + 1, t :: u :: rest =>
      rw [ends_cons] at h
      simp only [moreLeaves, List.flatMap_nil, List.map_nil, List.nil_append, Parser.moreBinders]
      rw [if_neg fun ht => h (by simp [ht.1])]
  | cons m more ih =>
    obtain ⟨⟨comma, hc⟩, b⟩ := m
    obtain ⟨n, rfl⟩ : ∃ k, n = k + 1 := ⟨n - 1, by simp at hn; omega⟩
    -- With or without a hint a binder begins with its name.
    obtain ⟨bs, hbs⟩ : ∃ bs, b.leaves.map Leaf.token = b.name.val :: bs := by
      obtain ⟨name, _ | ⟨colon, hint⟩⟩ := b <;> exact ⟨_, rfl⟩
    have hstep : (moreLeaves Binder.leaves ((⟨comma, hc⟩, b) :: more)).map Leaf.token ++ rest =
        comma :: b.name.val ::
          (bs ++ ((moreLeaves Binder.leaves more).map Leaf.token ++ rest)) := by
      simp [moreLeaves, leaf, Leaf.token, hbs]
    rw [hstep, Parser.moreBinders, if_pos ⟨hc, b.name.property⟩, ← List.cons_append, ← hbs,
      binder_eq b (ends_moreLeaves more h)]
    simp only [bind, Except.bind]
    rw [ih (by simpa using hn)]
    rfl

theorem expect_eq (reading : Construct) {k : TokenKind} (t : Terminal k) (rest : List Token) :
    Parser.expect reading k (t.val :: rest) = .ok rest := by
  rw [Parser.expect, if_pos t.property]

section opening

variable (rest : List Token)

theorem opening?_nil (zero : Terminal .nil) :
    Parser.opening? (zero.val :: rest) = some (.nil, rest) := by
  simp [Parser.opening?, zero.property]

theorem opening?_replicate (bang : Terminal .bang) :
    Parser.opening? (bang.val :: rest) = some (.replicate, rest) := by
  simp [Parser.opening?, bang.property]

theorem opening?_restrict (left : Terminal .leftParen) (new : Terminal .new) :
    Parser.opening? (left.val :: new.val :: rest) = some (.restrict, rest) := by
  simp [Parser.opening?, left.property, new.property]

theorem opening?_send (chan : Terminal .identifier) (less : Terminal .less) :
    Parser.opening? (chan.val :: less.val :: rest) = some (.send (occurrence chan none), rest) := by
  simp [Parser.opening?, chan.property, less.property, occurrence]

theorem opening?_receive (chan : Terminal .identifier) (left : Terminal .leftParen) :
    Parser.opening? (chan.val :: left.val :: rest) =
      some (.receive (occurrence chan none), rest) := by
  simp [Parser.opening?, chan.property, left.property, occurrence]

theorem opening?_group (left : Terminal .leftParen) {rest : List Token} (h : Ends [.new] rest) :
    Parser.opening? (left.val :: rest) = some (.group, rest) := by
  cases rest with
  | nil => simp [Parser.opening?, left.property]
  | cons t rest =>
    rw [ends_cons] at h
    have hk : t.kind ≠ .new := fun ht => h (by simp [ht])
    simp [Parser.opening?, left.property, hk]

end opening

theorem ends_new_composition (c : Composition Terminal) (rest : List Token) :
    Ends [.new] (c.leaves.map Leaf.token ++ rest) := by
  obtain ⟨l, ls, hl, ho⟩ := c.leaves_eq_cons
  rw [hl, List.map_cons, List.cons_append, ends_cons, Leaf.token, l.2.property]
  intro hn
  rw [List.mem_singleton.mp hn] at ho
  simp [openers] at ho

theorem opening?_isSome (a : Atom Terminal) (rest : List Token) :
    (Parser.opening? (a.leaves.map Leaf.token ++ rest)).isSome := by
  cases a with
  | nil zero => exact Option.isSome_of_mem (opening?_nil rest zero)
  | replicate bang body => exact Option.isSome_of_mem (opening?_replicate _ bang)
  | restrict left new binders right body => exact Option.isSome_of_mem (opening?_restrict _ left new)
  | send chan less values greater => exact Option.isSome_of_mem (opening?_send _ chan less)
  | receive chan left vars right dot body =>
    exact Option.isSome_of_mem (opening?_receive _ chan left)
  | group left inside right =>
    rw [Atom.leaves, List.map_cons, List.cons_append, List.map_append, List.append_assoc]
    exact Option.isSome_of_mem (opening?_group left (ends_new_composition inside _))

theorem length_more_le {α : Type} {each : α → List (Leaf Terminal)}
    (more : List (Terminal .comma × α)) : more.length ≤ (moreLeaves each more).length := by
  induction more with
  | nil => simp
  | cons m more ih =>
    rw [moreLeaves] at ih ⊢
    simp only [List.flatMap_cons, List.length_cons, List.length_append]
    omega

mutual

theorem Atom.atom_eq (a : Atom Terminal) {n : Nat} (rest : List Token)
    (h : 2 * a.leaves.length ≤ n + 1) :
    Parser.atom n (a.leaves.map Leaf.token ++ rest) = .ok (a.denote occurrence, rest) := by
  -- An atom has a token at least, and two steps for each token are enough.
  obtain ⟨n, rfl⟩ : ∃ k, n = k + 1 := by
    obtain ⟨l, ls, hl, -⟩ := a.leaves_eq_cons
    rw [hl, List.length_cons] at h
    exact ⟨n - 1, by omega⟩
  cases a with
  | nil zero =>
    have hts : (Atom.nil zero).leaves.map Leaf.token ++ rest = zero.val :: rest := rfl
    rw [hts, Parser.atom, opening?_nil]
    rfl
  | replicate bang body =>
    rw [Atom.leaves, List.length_cons] at h
    rw [Atom.leaves, List.map_cons, List.cons_append, token_leaf, Parser.atom, opening?_replicate]
    simp only [bind, Except.bind]
    rw [Atom.atom_eq body rest (by omega)]
    rfl
  | restrict left new binders right body =>
    obtain ⟨b, more⟩ := binders
    have hts : (Atom.restrict left new ⟨b, more⟩ right body).leaves.map Leaf.token ++ rest =
        left.val :: new.val :: (b.leaves.map Leaf.token ++
          ((moreLeaves Binder.leaves more).map Leaf.token ++
            right.val :: (body.leaves.map Leaf.token ++ rest))) := by
      simp [Atom.leaves, Separated.leaves]
    have hends : Ends [.comma, .colon] (right.val :: (body.leaves.map Leaf.token ++ rest)) := by
      simp [ends_cons, right.property]
    have hmore : more.length ≤ (moreLeaves Binder.leaves more).length := length_more_le more
    simp only [Atom.leaves, Separated.leaves, List.length_cons, List.length_append] at h
    rw [hts, Parser.atom, opening?_restrict]
    simp only [binder_eq b (ends_moreLeaves more hends), bind, Except.bind]
    rw [moreBinders_eq more (by omega) hends]
    simp only [expect_eq]
    rw [Atom.atom_eq body rest (by omega)]
    simp only [Atom.denote, Separated.elements, List.map_cons, List.map_map]
    rfl
  | send chan less values greater =>
    have hts : (Atom.send chan less values greater).leaves.map Leaf.token ++ rest =
        chan.val :: less.val :: (values.leaves.map Leaf.token ++ greater.val :: rest) := by
      simp [Atom.leaves]
    have hends : Ends [.comma, .identifier] (greater.val :: rest) := by
      simp [ends_cons, greater.property]
    rw [hts, Parser.atom, opening?_send]
    simp only [names_eq values hends, expect_eq, bind, Except.bind]
    rfl
  | receive chan left vars right dot body =>
    have hts : (Atom.receive chan left vars right dot body).leaves.map Leaf.token ++ rest =
        chan.val :: left.val :: (vars.leaves.map Leaf.token ++
          right.val :: dot.val :: (body.leaves.map Leaf.token ++ rest)) := by
      simp [Atom.leaves]
    have hends : Ends [.comma, .identifier]
        (right.val :: dot.val :: (body.leaves.map Leaf.token ++ rest)) := by
      simp [ends_cons, right.property]
    simp only [Atom.leaves, List.length_cons, List.length_append] at h
    rw [hts, Parser.atom, opening?_receive]
    simp only [names_eq vars hends, expect_eq, bind, Except.bind]
    rw [Atom.atom_eq body rest (by omega)]
    rfl
  | group left inside right =>
    have hts : (Atom.group left inside right).leaves.map Leaf.token ++ rest =
        left.val :: (inside.leaves.map Leaf.token ++ right.val :: rest) := by
      simp [Atom.leaves]
    have hends : Ends [.bar] (right.val :: rest) := by simp [ends_cons, right.property]
    simp only [Atom.leaves, List.length_cons, List.length_append] at h
    rw [hts, Parser.atom, opening?_group left (ends_new_composition inside _)]
    simp only [bind, Except.bind]
    rw [Composition.composition_eq inside hends (by omega)]
    simp only [expect_eq]
    rfl

theorem Composition.composition_eq (c : Composition Terminal) {n : Nat} {rest : List Token}
    (hrest : Ends [.bar] rest) (h : 2 * c.leaves.length ≤ n) :
    Parser.composition n (c.leaves.map Leaf.token ++ rest) = .ok (c.denote occurrence, rest) := by
  obtain ⟨first, more⟩ := c
  rw [Composition.leaves, List.length_append] at h
  obtain ⟨l, ls, hl, -⟩ := first.leaves_eq_cons
  have hlen := congrArg List.length hl
  rw [List.length_cons] at hlen
  obtain ⟨n, rfl⟩ : ∃ k, n = k + 1 := ⟨n - 1, by omega⟩
  rw [Composition.leaves, List.map_append, List.append_assoc, Parser.composition,
    Atom.atom_eq first _ (by omega)]
  exact Bars.beside_eq more _ hrest (by omega)

theorem Bars.beside_eq (c : Bars Terminal) {n : Nat} (left : Process Occurrence)
    {rest : List Token} (hrest : Ends [.bar] rest) (h : 2 * c.leaves.length ≤ n) :
    Parser.beside n left (c.leaves.map Leaf.token ++ rest) =
      .ok (c.denote occurrence left, rest) := by
  cases c with
  | none =>
    match n, rest with
    | 0, _ => rfl
    | n + 1, [] => rfl
    | n + 1, t :: rest =>
      rw [ends_cons] at hrest
      rw [Bars.leaves, List.map_nil, List.nil_append, Parser.beside,
        if_neg fun ht => hrest (by simp [ht.1])]
      rfl
  | more bar next more =>
    rw [Bars.leaves, List.length_cons, List.length_append] at h
    obtain ⟨n, rfl⟩ : ∃ k, n = k + 1 := ⟨n - 1, by omega⟩
    rw [Bars.leaves, List.map_cons, List.map_append, List.cons_append, List.append_assoc,
      Parser.beside, if_pos ⟨bar.property, opening?_isSome next _⟩,
      Atom.atom_eq next _ (by omega)]
    exact Bars.beside_eq more _ hrest (by omega)

end

end complete

section sound

theorem of_expect {reading : Construct} {k : TokenKind} {ts rest : List Token}
    (h : Parser.expect reading k ts = .ok rest) : ∃ t : Terminal k, t.val :: rest = ts := by
  cases ts with
  | nil => cases h
  | cons t ts =>
    rw [Parser.expect] at h
    split at h
    · next hk =>
      cases h
      exact ⟨⟨t, hk⟩, rfl⟩
    · cases h

theorem of_moreNames (ts : List Token) :
    ∃ more : List (Terminal .comma × Terminal .identifier),
      (moreLeaves nameLeaves more).map Leaf.token ++ (Parser.moreNames ts).2 = ts ∧
      more.map (fun m => occurrence m.2 none) = (Parser.moreNames ts).1 := by
  fun_induction Parser.moreNames ts with
  | case1 comma name ts hk names rest heq ih =>
    obtain ⟨more, hts, hnames⟩ := ih
    rw [heq] at hts hnames
    refine ⟨(⟨comma, hk.1⟩, ⟨name, hk.2⟩) :: more, ?_, ?_⟩
    · rw [← hts]
      simp [moreLeaves, nameLeaves]
    · rw [List.map_cons, hnames]
      rfl
  | case2 comma name ts hk => exact ⟨[], rfl, rfl⟩
  | case3 ts hts => exact ⟨[], rfl, rfl⟩

theorem of_names (ts : List Token) :
    ∃ ns : Names Terminal, ns.leaves.map Leaf.token ++ (Parser.names ts).2 = ts ∧
      ns.elements.map (occurrence · none) = (Parser.names ts).1 := by
  cases ts with
  | nil => exact ⟨none, rfl, rfl⟩
  | cons name ts =>
    rw [Parser.names]
    split
    · next hk =>
      obtain ⟨more, hts, hnames⟩ := of_moreNames ts
      refine ⟨some ⟨⟨name, hk⟩, more⟩, ?_, ?_⟩
      · simpa [Names.leaves, Separated.leaves, nameLeaves] using hts
      · simp only [Names.elements, Separated.elements, List.map_cons, List.map_map]
        exact congrArg (occurrence ⟨name, hk⟩ none :: ·) hnames
    · exact ⟨none, rfl, rfl⟩

theorem of_binder {ts rest : List Token} {o : Occurrence} (h : Parser.binder ts = .ok (o, rest)) :
    ∃ b : Binder Terminal, b.leaves.map Leaf.token ++ rest = ts ∧ b.denote occurrence = o := by
  cases ts with
  | nil => cases h
  | cons name ts =>
    rw [Parser.binder] at h
    split at h
    · next hn =>
      cases ts with
      | nil =>
        cases h
        exact ⟨⟨⟨name, hn⟩, none⟩, rfl, rfl⟩
      | cons colon ts =>
        by_cases hc : colon.kind = .colon
        · cases ts with
          | nil => simp [Parser.hint, hc, bind, Except.bind] at h
          | cons t ts =>
            by_cases ht : t.kind = .identifier
            · simp only [Parser.hint, hc, ht, if_true, bind, Except.bind] at h
              cases h
              exact ⟨⟨⟨name, hn⟩, some (⟨colon, hc⟩, ⟨t, ht⟩)⟩, rfl, rfl⟩
            · simp [Parser.hint, hc, ht, bind, Except.bind] at h
        · simp only [Parser.hint, hc, if_false, bind, Except.bind] at h
          cases h
          exact ⟨⟨⟨name, hn⟩, none⟩, rfl, rfl⟩
    · cases h

theorem bind_eq_ok {α β ε : Type} {x : Except ε α} {f : α → Except ε β} {b : β}
    (h : (x >>= f) = .ok b) : ∃ a, x = .ok a ∧ f a = .ok b := by
  cases x with
  | error e => cases h
  | ok a => exact ⟨a, rfl, h⟩

theorem of_moreBinders {n : Nat} {ts rest : List Token} {os : List Occurrence}
    (h : Parser.moreBinders n ts = .ok (os, rest)) :
    ∃ more : List (Terminal .comma × Binder Terminal),
      (moreLeaves Binder.leaves more).map Leaf.token ++ rest = ts ∧
      more.map (fun m => m.2.denote occurrence) = os := by
  fun_induction Parser.moreBinders n ts generalizing os rest with
  | case1 n comma t ts hk ih =>
    obtain ⟨⟨name, ts'⟩, hb, h⟩ := bind_eq_ok h
    obtain ⟨⟨names, rest'⟩, hm, h⟩ := bind_eq_ok h
    cases h
    obtain ⟨b, hts, rfl⟩ := of_binder hb
    obtain ⟨more, rfl, rfl⟩ := ih ts' hm
    refine ⟨(⟨comma, hk.1⟩, b) :: more, ?_, rfl⟩
    simp [moreLeaves, ← hts]
  | case2 n comma t ts hk =>
    cases h
    exact ⟨[], rfl, rfl⟩
  | case3 n ts hts =>
    cases h
    exact ⟨[], rfl, rfl⟩

/-- The tokens of an opening with what is known of it. -/
def Opens (ts rest : List Token) : Parser.Opening → Prop
  | .nil => ∃ zero : Terminal .nil, zero.val :: rest = ts
  | .replicate => ∃ bang : Terminal .bang, bang.val :: rest = ts
  | .restrict => ∃ (left : Terminal .leftParen) (new : Terminal .new),
      left.val :: new.val :: rest = ts
  | .group => ∃ left : Terminal .leftParen, left.val :: rest = ts
  | .send o => ∃ (chan : Terminal .identifier) (less : Terminal .less),
      chan.val :: less.val :: rest = ts ∧ occurrence chan none = o
  | .receive o => ∃ (chan : Terminal .identifier) (left : Terminal .leftParen),
      chan.val :: left.val :: rest = ts ∧ occurrence chan none = o

theorem of_opening? {ts rest : List Token} {o : Parser.Opening}
    (h : Parser.opening? ts = some (o, rest)) : Opens ts rest o := by
  cases ts with
  | nil => cases h
  | cons t ts =>
    unfold Parser.opening? at h
    dsimp only at h
    split at h
    · next hk =>
      cases h
      exact ⟨⟨t, hk⟩, rfl⟩
    · next hk =>
      cases h
      exact ⟨⟨t, hk⟩, rfl⟩
    · next next ts hk =>
      split at h
      · next hn =>
        cases h
        exact ⟨⟨t, hk⟩, ⟨next, hn⟩, rfl⟩
      · cases h
        exact ⟨⟨t, hk⟩, rfl⟩
    · next hk =>
      cases h
      exact ⟨⟨t, hk⟩, rfl⟩
    · next next ts hk =>
      split at h
      · next hn =>
        cases h
        exact ⟨⟨t, hk⟩, ⟨next, hn⟩, rfl, rfl⟩
      · split at h
        · next hn =>
          cases h
          exact ⟨⟨t, hk⟩, ⟨next, hn⟩, rfl, rfl⟩
        · cases h
    · cases h

/-- Whether what is read with a bound on the nesting is derived. -/
structure ReadsDerived (n : Nat) : Prop where
  atom : ∀ {ts p rest}, Parser.atom n ts = .ok (p, rest) →
    ∃ a : Atom Terminal, a.leaves.map Leaf.token ++ rest = ts ∧ a.denote occurrence = p
  composition : ∀ {ts p rest}, Parser.composition n ts = .ok (p, rest) →
    ∃ c : Composition Terminal, c.leaves.map Leaf.token ++ rest = ts ∧ c.denote occurrence = p
  beside : ∀ {ts left p rest}, Parser.beside n left ts = .ok (p, rest) →
    ∃ c : Bars Terminal, c.leaves.map Leaf.token ++ rest = ts ∧ c.denote occurrence left = p

namespace ReadsDerived

variable {n : Nat} {ts rest : List Token} {p : Process Occurrence}

theorem atom_succ (ih : ReadsDerived n) (h : Parser.atom (n + 1) ts = .ok (p, rest)) :
    ∃ a : Atom Terminal, a.leaves.map Leaf.token ++ rest = ts ∧ a.denote occurrence = p := by
  rw [Parser.atom] at h
  -- The cases are the openings, in the order of the reader.
  split at h
  · cases h
  · next ts₀ ho =>
    cases h
    obtain ⟨zero, rfl⟩ := of_opening? ho
    exact ⟨.nil zero, rfl, rfl⟩
  · next ts₀ ho =>
    obtain ⟨⟨body, ts₁⟩, hb, h⟩ := bind_eq_ok h
    cases h
    obtain ⟨bang, rfl⟩ := of_opening? ho
    obtain ⟨body, rfl, rfl⟩ := ih.atom hb
    exact ⟨.replicate bang body, rfl, rfl⟩
  · next ts₀ ho =>
    obtain ⟨⟨name, ts₁⟩, hname, h⟩ := bind_eq_ok h
    obtain ⟨⟨names, ts₂⟩, hnames, h⟩ := bind_eq_ok h
    obtain ⟨ts₃, hright, h⟩ := bind_eq_ok h
    obtain ⟨⟨body, ts₄⟩, hbody, h⟩ := bind_eq_ok h
    cases h
    obtain ⟨left, new, rfl⟩ := of_opening? ho
    obtain ⟨b, hb, rfl⟩ := of_binder hname
    obtain ⟨more, hmore, rfl⟩ := of_moreBinders hnames
    obtain ⟨right, rfl⟩ := of_expect hright
    obtain ⟨body, hts, rfl⟩ := ih.atom hbody
    refine ⟨.restrict left new ⟨b, more⟩ right body, ?_, ?_⟩
    · simp [Atom.leaves, Separated.leaves, ← hb, ← hmore, ← hts]
    · simp only [Atom.denote, Separated.elements, List.map_cons, List.map_map]
      rfl
  · next ts₀ ho =>
    obtain ⟨⟨inside, ts₁⟩, hinside, h⟩ := bind_eq_ok h
    obtain ⟨ts₂, hright, h⟩ := bind_eq_ok h
    cases h
    obtain ⟨left, rfl⟩ := of_opening? ho
    obtain ⟨c, hc, rfl⟩ := ih.composition hinside
    obtain ⟨right, rfl⟩ := of_expect hright
    exact ⟨.group left c right, by simp [Atom.leaves, ← hc], rfl⟩
  · next chan ts₀ ho =>
    obtain ⟨values, hvalues, hnames⟩ := of_names ts₀
    generalize Parser.names ts₀ = listed at h hvalues hnames
    obtain ⟨names, ts₁⟩ := listed
    obtain ⟨ts₂, hgreater, h⟩ := bind_eq_ok h
    cases h
    obtain ⟨chan, less, rfl, rfl⟩ := of_opening? ho
    obtain ⟨greater, rfl⟩ := of_expect hgreater
    refine ⟨.send chan less values greater, ?_, ?_⟩
    · simp [Atom.leaves, ← hvalues]
    · rw [Atom.denote, hnames]
  · next chan ts₀ ho =>
    obtain ⟨vars, hvars, hnames⟩ := of_names ts₀
    generalize Parser.names ts₀ = listed at h hvars hnames
    obtain ⟨names, ts₁⟩ := listed
    obtain ⟨ts₂, hright, h⟩ := bind_eq_ok h
    obtain ⟨ts₃, hdot, h⟩ := bind_eq_ok h
    obtain ⟨⟨body, ts₄⟩, hbody, h⟩ := bind_eq_ok h
    cases h
    obtain ⟨chan, left, rfl, rfl⟩ := of_opening? ho
    obtain ⟨right, rfl⟩ := of_expect hright
    obtain ⟨dot, rfl⟩ := of_expect hdot
    obtain ⟨body, rfl, rfl⟩ := ih.atom hbody
    refine ⟨.receive chan left vars right dot body, ?_, ?_⟩
    · simp [Atom.leaves, ← hvars]
    · rw [Atom.denote, hnames]

theorem composition_succ (ih : ReadsDerived n)
    (h : Parser.composition (n + 1) ts = .ok (p, rest)) :
    ∃ c : Composition Terminal, c.leaves.map Leaf.token ++ rest = ts ∧
      c.denote occurrence = p := by
  obtain ⟨⟨first, ts₁⟩, hfirst, h⟩ := bind_eq_ok h
  obtain ⟨a, rfl, rfl⟩ := ih.atom hfirst
  obtain ⟨more, rfl, rfl⟩ := ih.beside h
  exact ⟨.mk a more, by simp [Composition.leaves], rfl⟩

theorem beside_succ (ih : ReadsDerived n) {left : Process Occurrence}
    (h : Parser.beside (n + 1) left ts = .ok (p, rest)) :
    ∃ c : Bars Terminal, c.leaves.map Leaf.token ++ rest = ts ∧
      c.denote occurrence left = p := by
  cases ts with
  | nil =>
    cases h
    exact ⟨.none, rfl, rfl⟩
  | cons bar ts =>
    rw [Parser.beside] at h
    split at h
    · next hbar =>
      obtain ⟨⟨right, ts₁⟩, hright, h⟩ := bind_eq_ok h
      obtain ⟨next, rfl, rfl⟩ := ih.atom hright
      obtain ⟨more, rfl, rfl⟩ := ih.beside h
      exact ⟨.more ⟨bar, hbar.1⟩ next more, by simp [Bars.leaves], rfl⟩
    · cases h
      exact ⟨.none, rfl, rfl⟩

end ReadsDerived

theorem readsDerived (n : Nat) : ReadsDerived n := by
  induction n with
  | zero =>
    constructor
    · intro ts p rest h
      cases h
    · intro ts p rest h
      cases h
    · intro ts left p rest h
      cases h
      exact ⟨.none, rfl, rfl⟩
  | succ n ih => exact ⟨ih.atom_succ, ih.composition_succ, ih.beside_succ⟩

end sound

theorem all_eq_ok_iff {ts : List Token} {p : Process Occurrence} :
    Parser.all ts = .ok p ↔ ∃ c : Composition Terminal, c.tokens = ts ∧ c.denote occurrence = p := by
  unfold Parser.all
  constructor
  · intro h
    split at h
    · cases h
    · next q hq =>
      cases h
      obtain ⟨c, hts, hp⟩ := (readsDerived _).composition hq
      exact ⟨c, by rwa [List.append_nil] at hts, hp⟩
    · cases h
  · rintro ⟨c, rfl, rfl⟩
    have h := Composition.composition_eq c (n := 2 * c.tokens.length + 2) (ends_nil _)
      (by simp [Composition.tokens])
    rw [List.append_nil] at h
    rw [Composition.tokens] at h ⊢
    rw [h]

abbrev Derivation := Composition fun _ => Unit

theorem Composition.map_kind_tokens (c : Composition Terminal) :
    c.tokens.map (·.kind) = c.kinds := by
  rw [Composition.tokens, Composition.kinds, List.map_map]
  exact List.map_congr_left fun l _ => l.2.property

theorem exists_derivation_iff {ts : List Token} :
    (∃ d : Derivation, d.kinds = ts.map (·.kind)) ↔ ∃ c : Composition Terminal, c.tokens = ts := by
  constructor
  · rintro ⟨d, hd⟩
    have hleaves : (ts.map fun t => (⟨t.kind, t, rfl⟩ : Leaf Terminal)).map
        (Leaf.map fun _ _ => ()) = d.leaves := by
      have h := congrArg (List.map fun k => (⟨k, ()⟩ : Leaf fun _ => Unit)) hd
      rw [Composition.kinds, List.map_map, List.map_map] at h
      rw [List.map_map]
      exact h.symm.trans (List.map_id _)
    obtain ⟨c, hc, -⟩ := Composition.exists_map_eq _ d hleaves
    refine ⟨c, ?_⟩
    rw [Composition.tokens, hc, List.map_map]
    exact List.map_id _
  · rintro ⟨c, rfl⟩
    refine ⟨c.map fun _ _ => (), ?_⟩
    rw [c.map_kind_tokens, Composition.kinds, Composition.leaves_map, List.map_map]
    rfl

theorem kinds_injective : Function.Injective (Composition.kinds : Derivation → List TokenKind) := by
  intro d d' h
  refine Composition.leaves_injective ?_
  refine List.map_injective_iff.mpr ?_ h
  rintro ⟨k, ⟨⟩⟩ ⟨l, ⟨⟩⟩ hk
  exact congrArg (fun k => (⟨k, ()⟩ : Leaf fun _ => Unit)) hk

/-- What is known of a name where it is written. The second name of a binder is its hint and the
base type it has. -/
def written (n : Terminal .identifier) : Option (Terminal .identifier) → Entry
  | none => (Entry.ordinary n.val.raw).located n.val.span
  | some hint => (Entry.hinted n.val.raw hint.val.raw).located n.val.span

end Grammar

theorem Program.parse_eq_ok_iff {source : String} {p : Program} :
    Program.parse source = .ok p ↔
      ∃ c : Grammar.Composition Grammar.Terminal, c.tokens = tokens source ∧
        ⟨(Store.empty.load (c.denote Grammar.occurrence)).1,
          (Store.empty.load (c.denote Grammar.occurrence)).2⟩ = p := by
  rw [parse_eq_ok_iff_all]
  simp only [Grammar.all_eq_ok_iff]
  constructor
  · rintro ⟨q, ⟨c, hc, rfl⟩, hp⟩
    exact ⟨c, hc, hp⟩
  · rintro ⟨c, hc, hp⟩
    exact ⟨_, ⟨c, hc, rfl⟩, hp⟩

theorem Program.map_get?_load (c : Grammar.Composition Grammar.Terminal) :
    (Store.empty.load (c.denote Grammar.occurrence)).1.map
        (Store.empty.load (c.denote Grammar.occurrence)).2.get? =
      c.denote fun n hint => some (Grammar.written n hint) := by
  have hentry : ∀ n hint, (Grammar.occurrence n hint).entry = Grammar.written n hint := by
    rintro n (_ | hint) <;> rfl
  rw [Store.map_get?_load, Grammar.Composition.map_denote]
  simp only [hentry]

theorem Program.parse_derives (source : String) :
    ((∃ p, Program.parse source = .ok p) ↔
      ∃ d : Grammar.Derivation, d.kinds = (tokens source).map (·.kind)) ∧
    (∀ d d' : Grammar.Derivation, d.kinds = (tokens source).map (·.kind) →
      d'.kinds = (tokens source).map (·.kind) → d = d') ∧
    ∀ p, Program.parse source = .ok p →
      ∃ c : Grammar.Composition Grammar.Terminal, c.tokens = tokens source ∧
        p.process.map p.store.get? = c.denote fun n hint => some (Grammar.written n hint) := by
  refine ⟨?_, fun d d' hd hd' => Grammar.kinds_injective (hd.trans hd'.symm), fun p hp => ?_⟩
  · rw [Grammar.exists_derivation_iff]
    constructor
    · rintro ⟨p, hp⟩
      obtain ⟨c, hc, -⟩ := Program.parse_eq_ok_iff.mp hp
      exact ⟨c, hc⟩
    · rintro ⟨c, hc⟩
      exact ⟨_, Program.parse_eq_ok_iff.mpr ⟨c, hc, rfl⟩⟩
  · obtain ⟨c, hc, rfl⟩ := Program.parse_eq_ok_iff.mp hp
    exact ⟨c, hc, Program.map_get?_load c⟩

theorem Program.parse_derives_hinted :
    ∃ p, Program.parse "(new a:T,b)a<b> | !0" = .ok p ∧
      ∃ c : Grammar.Composition Grammar.Terminal, c.tokens = tokens "(new a:T,b)a<b> | !0" ∧
        p.process.map p.store.get? = c.denote fun n hint => some (Grammar.written n hint) := by
  have hparse : (Program.parse "(new a:T,b)a<b> | !0").toBool = true := by decide +kernel
  cases hp : Program.parse "(new a:T,b)a<b> | !0" with
  | error e =>
    rw [hp] at hparse
    cases hparse
  | ok p => exact ⟨p, rfl, (Program.parse_derives _).2.2 p hp⟩

end PiCalculus
