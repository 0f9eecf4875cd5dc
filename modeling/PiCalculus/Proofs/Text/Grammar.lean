import Mathlib
import PiCalculus.Proofs.Process.Structure
import PiCalculus.Text.Token

/-! The grammar of processes. A derivation is a tree with something for each terminal at its leaves,
such as the token that stands there; what the leaves hold is left open. No two derivations have the
same leaves. -/

namespace PiCalculus.Grammar

/-- What stands for one terminal, with the kind of that. -/
abbrev Leaf (T : TokenKind → Type) := (kind : TokenKind) × T kind

/-- `x (',' x)*` -/
structure Separated (T : TokenKind → Type) (α : Type) where
  first : α
  more : List (T .comma × α)

/-- `[name (',' name)*]` -/
abbrev Names (T : TokenKind → Type) := Option (Separated T (T .identifier))

/-- `name [':' name]` -/
structure Binder (T : TokenKind → Type) where
  name : T .identifier
  hint : Option (T .colon × T .identifier)

mutual

inductive Atom (T : TokenKind → Type)
  | nil (zero : T .nil)
  | replicate (bang : T .bang) (body : Atom T)
  | restrict (left : T .leftParen) (new : T .new) (binders : Separated T (Binder T))
      (right : T .rightParen) (body : Atom T)
  | send (chan : T .identifier) (less : T .less) (values : Names T) (greater : T .greater)
  | receive (chan : T .identifier) (left : T .leftParen) (vars : Names T) (right : T .rightParen)
      (dot : T .dot) (body : Atom T)
  | group (left : T .leftParen) (inside : Composition T) (right : T .rightParen)

/-- `atom ('|' atom)*` -/
inductive Composition (T : TokenKind → Type)
  | mk (first : Atom T) (more : Bars T)

/-- `('|' atom)*` -/
inductive Bars (T : TokenKind → Type)
  | none
  | more (bar : T .bar) (next : Atom T) (rest : Bars T)

end

variable {T : TokenKind → Type}

def leaf {k : TokenKind} (t : T k) : Leaf T := ⟨k, t⟩

def moreLeaves {α : Type} (each : α → List (Leaf T)) (more : List (T .comma × α)) : List (Leaf T) :=
  more.flatMap fun m => leaf m.1 :: each m.2

def Separated.leaves {α : Type} (each : α → List (Leaf T)) (l : Separated T α) : List (Leaf T) :=
  each l.first ++ moreLeaves each l.more

def nameLeaves (n : T .identifier) : List (Leaf T) := [leaf n]

def Names.leaves : Names T → List (Leaf T)
  | none => []
  | some l => l.leaves nameLeaves

def Binder.leaves : Binder T → List (Leaf T)
  | ⟨name, none⟩ => [leaf name]
  | ⟨name, some (colon, hint)⟩ => [leaf name, leaf colon, leaf hint]

mutual

def Atom.leaves : Atom T → List (Leaf T)
  | .nil zero => [leaf zero]
  | .replicate bang body => leaf bang :: body.leaves
  | .restrict left new binders right body =>
    leaf left :: leaf new :: (binders.leaves Binder.leaves ++ leaf right :: body.leaves)
  | .send chan less values greater => leaf chan :: leaf less :: (values.leaves ++ [leaf greater])
  | .receive chan left vars right dot body =>
    leaf chan :: leaf left :: (vars.leaves ++ leaf right :: leaf dot :: body.leaves)
  | .group left inside right => leaf left :: (inside.leaves ++ [leaf right])

def Composition.leaves : Composition T → List (Leaf T)
  | .mk first more => first.leaves ++ more.leaves

def Bars.leaves : Bars T → List (Leaf T)
  | .none => []
  | .more bar next rest => leaf bar :: (next.leaves ++ rest.leaves)

end

def Composition.kinds (d : Composition T) : List TokenKind := d.leaves.map (·.1)

/-- Whether what follows does not begin with one of some kinds. -/
def Stops (kinds : List TokenKind) (rest : List (Leaf T)) : Prop :=
  ∀ l ∈ rest.head?, l.1 ∉ kinds

theorem stops_nil (kinds : List TokenKind) : Stops kinds ([] : List (Leaf T)) := by
  simp [Stops]

theorem stops_cons {kinds : List TokenKind} {l : Leaf T} {rest : List (Leaf T)} :
    Stops kinds (l :: rest) ↔ l.1 ∉ kinds := by
  simp [Stops]

theorem Stops.mono {kinds kinds' : List TokenKind} {rest : List (Leaf T)} (h : Stops kinds rest)
    (hk : kinds' ⊆ kinds) : Stops kinds' rest :=
  fun l hl hm => h l hl (hk hm)

theorem leaf_inj {k : TokenKind} {t u : T k} : leaf t = leaf u ↔ t = u := by
  simp [leaf]

theorem Binder.leaves_append_inj {b c : Binder T} {r s : List (Leaf T)} (hr : Stops [.colon] r)
    (hs : Stops [.colon] s) (h : b.leaves ++ r = c.leaves ++ s) : b = c ∧ r = s := by
  obtain ⟨b, _ | ⟨i, g⟩⟩ := b <;> obtain ⟨c, _ | ⟨j, k⟩⟩ := c
  · simpa [Binder.leaves, leaf_inj] using h
  · simp only [Binder.leaves, List.cons_append, List.nil_append, List.cons.injEq] at h
    rw [h.2] at hr
    simp [stops_cons, leaf] at hr
  · simp only [Binder.leaves, List.cons_append, List.nil_append, List.cons.injEq] at h
    rw [← h.2] at hs
    simp [stops_cons, leaf] at hs
  · simp only [Binder.leaves, List.cons_append, List.nil_append, List.cons.injEq, leaf_inj] at h
    obtain ⟨rfl, rfl, rfl, rfl⟩ := h
    exact ⟨rfl, rfl⟩

theorem stops_moreLeaves {α : Type} (each : α → List (Leaf T)) (more : List (T .comma × α))
    {rest : List (Leaf T)} (h : Stops [.comma, .colon] rest) :
    Stops [.colon] (moreLeaves each more ++ rest) := by
  cases more with
  | nil => exact h.mono (by simp)
  | cons m more => simp [moreLeaves, stops_cons, leaf]

/-- A list ends where neither a comma nor a colon follows. -/
theorem moreLeaves_append_inj {α : Type} {each : α → List (Leaf T)}
    (heach : ∀ {a b : α} {r s : List (Leaf T)}, Stops [.colon] r → Stops [.colon] s →
      each a ++ r = each b ++ s → a = b ∧ r = s)
    {l m : List (T .comma × α)} {r s : List (Leaf T)} (hr : Stops [.comma, .colon] r)
    (hs : Stops [.comma, .colon] s) (h : moreLeaves each l ++ r = moreLeaves each m ++ s) :
    l = m ∧ r = s := by
  induction l generalizing m with
  | nil =>
    cases m with
    | nil => exact ⟨rfl, h⟩
    | cons b m =>
      rw [show r = _ from h] at hr
      simp [moreLeaves, stops_cons, leaf] at hr
  | cons a l ih =>
    cases m with
    | nil =>
      rw [show s = _ from h.symm] at hs
      simp [moreLeaves, stops_cons, leaf] at hs
    | cons b m =>
      obtain ⟨comma, a⟩ := a
      obtain ⟨comma', b⟩ := b
      have h' : leaf comma :: (each a ++ (moreLeaves each l ++ r)) =
          leaf comma' :: (each b ++ (moreLeaves each m ++ s)) := by
        simpa [moreLeaves] using h
      rw [List.cons.injEq, leaf_inj] at h'
      obtain ⟨rfl, hrest⟩ := heach (stops_moreLeaves each l hr) (stops_moreLeaves each m hs) h'.2
      obtain ⟨rfl, rfl⟩ := ih hrest
      exact ⟨by rw [h'.1], rfl⟩

theorem Separated.leaves_append_inj {α : Type} {each : α → List (Leaf T)}
    (heach : ∀ {a b : α} {r s : List (Leaf T)}, Stops [.colon] r → Stops [.colon] s →
      each a ++ r = each b ++ s → a = b ∧ r = s)
    {l m : Separated T α} {r s : List (Leaf T)} (hr : Stops [.comma, .colon] r)
    (hs : Stops [.comma, .colon] s) (h : l.leaves each ++ r = m.leaves each ++ s) :
    l = m ∧ r = s := by
  obtain ⟨a, as⟩ := l
  obtain ⟨b, bs⟩ := m
  rw [Separated.leaves, Separated.leaves, List.append_assoc, List.append_assoc] at h
  obtain ⟨hab, hmore⟩ := heach (stops_moreLeaves each as hr) (stops_moreLeaves each bs hs) h
  obtain ⟨hmore, hrest⟩ := moreLeaves_append_inj heach hr hs hmore
  exact ⟨congrArg₂ Separated.mk hab hmore, hrest⟩

theorem Names.leaves_append_inj {ns ms : Names T} {r s : List (Leaf T)}
    (hr : Stops [.identifier, .comma, .colon] r) (hs : Stops [.identifier, .comma, .colon] s)
    (h : ns.leaves ++ r = ms.leaves ++ s) : ns = ms ∧ r = s := by
  cases ns with
  | none =>
    cases ms with
    | none => exact ⟨rfl, h⟩
    | some m =>
      rw [show r = _ from h] at hr
      simp [Names.leaves, Separated.leaves, nameLeaves, stops_cons, leaf] at hr
  | some n =>
    cases ms with
    | none =>
      rw [show s = _ from h.symm] at hs
      simp [Names.leaves, Separated.leaves, nameLeaves, stops_cons, leaf] at hs
    | some m =>
      have heach : ∀ {a b : T .identifier} {r s : List (Leaf T)}, Stops [.colon] r →
          Stops [.colon] s → nameLeaves a ++ r = nameLeaves b ++ s → a = b ∧ r = s :=
        fun _ _ h => by simpa [nameLeaves, leaf_inj] using h
      obtain ⟨hnm, hrest⟩ :=
        Separated.leaves_append_inj heach (hr.mono (by simp)) (hs.mono (by simp)) h
      exact ⟨congrArg some hnm, hrest⟩

/-- The kinds with which an atom begins. -/
def openers : List TokenKind := [.nil, .bang, .leftParen, .identifier]

theorem Atom.leaves_eq_cons (a : Atom T) : ∃ l ls, a.leaves = l :: ls ∧ l.1 ∈ openers := by
  cases a <;> exact ⟨_, _, rfl, by simp [leaf, openers]⟩

theorem Composition.leaves_eq_cons (c : Composition T) :
    ∃ l ls, c.leaves = l :: ls ∧ l.1 ∈ openers := by
  obtain ⟨first, more⟩ := c
  obtain ⟨l, ls, hl, ho⟩ := first.leaves_eq_cons
  exact ⟨l, ls ++ more.leaves, by rw [Composition.leaves, hl, List.cons_append], ho⟩

mutual

theorem Atom.leaves_append_inj (a b : Atom T) {r s : List (Leaf T)}
    (h : a.leaves ++ r = b.leaves ++ s) : a = b ∧ r = s := by
  cases a with
  | nil zero =>
    cases b with
    | nil zero' => simpa [Atom.leaves, leaf_inj] using h
    | _ => simp [Atom.leaves, leaf] at h
  | replicate bang body =>
    cases b with
    | replicate bang' body' =>
      simp only [Atom.leaves, List.cons_append, List.cons.injEq, leaf_inj] at h
      obtain ⟨rfl, h⟩ := h
      obtain ⟨rfl, rfl⟩ := Atom.leaves_append_inj body body' h
      exact ⟨rfl, rfl⟩
    | _ => simp [Atom.leaves, leaf] at h
  | restrict left new binders right body =>
    cases b with
    | restrict left' new' binders' right' body' =>
      simp only [Atom.leaves, List.cons_append, List.append_assoc, List.cons.injEq, leaf_inj] at h
      obtain ⟨rfl, rfl, h⟩ := h
      obtain ⟨rfl, hright⟩ := Separated.leaves_append_inj Binder.leaves_append_inj
        (by simp [stops_cons, leaf]) (by simp [stops_cons, leaf]) h
      simp only [List.cons.injEq, leaf_inj] at hright
      obtain ⟨rfl, hbody⟩ := hright
      obtain ⟨rfl, rfl⟩ := Atom.leaves_append_inj body body' hbody
      exact ⟨rfl, rfl⟩
    | group left' inside right' =>
      -- Both begin with a parenthesis, but no composition begins with the keyword that comes next.
      obtain ⟨l, ls, hl, ho⟩ := inside.leaves_eq_cons
      simp only [Atom.leaves, hl, List.cons_append, List.cons.injEq] at h
      rw [← h.2.1] at ho
      simp [leaf, openers] at ho
    | _ => simp [Atom.leaves, leaf] at h
  | send chan less values greater =>
    cases b with
    | send chan' less' values' greater' =>
      simp only [Atom.leaves, List.cons_append, List.append_assoc, List.nil_append,
        List.cons.injEq, leaf_inj] at h
      obtain ⟨rfl, rfl, h⟩ := h
      obtain ⟨rfl, hgreater⟩ := Names.leaves_append_inj (by simp [stops_cons, leaf])
        (by simp [stops_cons, leaf]) h
      simp only [List.cons.injEq, leaf_inj] at hgreater
      obtain ⟨rfl, rfl⟩ := hgreater
      exact ⟨rfl, rfl⟩
    | _ => simp [Atom.leaves, leaf] at h
  | receive chan left vars right dot body =>
    cases b with
    | receive chan' left' vars' right' dot' body' =>
      simp only [Atom.leaves, List.cons_append, List.append_assoc, List.cons.injEq, leaf_inj] at h
      obtain ⟨rfl, rfl, h⟩ := h
      obtain ⟨rfl, hright⟩ := Names.leaves_append_inj (by simp [stops_cons, leaf])
        (by simp [stops_cons, leaf]) h
      simp only [List.cons.injEq, leaf_inj] at hright
      obtain ⟨rfl, rfl, hbody⟩ := hright
      obtain ⟨rfl, rfl⟩ := Atom.leaves_append_inj body body' hbody
      exact ⟨rfl, rfl⟩
    | _ => simp [Atom.leaves, leaf] at h
  | group left inside right =>
    cases b with
    | group left' inside' right' =>
      simp only [Atom.leaves, List.cons_append, List.append_assoc, List.nil_append,
        List.cons.injEq, leaf_inj] at h
      obtain ⟨rfl, h⟩ := h
      obtain ⟨rfl, hright⟩ := Composition.leaves_append_inj inside inside'
        (by simp [stops_cons, leaf]) (by simp [stops_cons, leaf]) h
      simp only [List.cons.injEq, leaf_inj] at hright
      obtain ⟨rfl, rfl⟩ := hright
      exact ⟨rfl, rfl⟩
    | restrict left' new' binders' right' body' =>
      obtain ⟨l, ls, hl, ho⟩ := inside.leaves_eq_cons
      simp only [Atom.leaves, hl, List.cons_append, List.cons.injEq] at h
      rw [h.2.1] at ho
      simp [leaf, openers] at ho
    | _ => simp [Atom.leaves, leaf] at h

theorem Composition.leaves_append_inj (c d : Composition T) {r s : List (Leaf T)}
    (hr : Stops [.bar] r) (hs : Stops [.bar] s) (h : c.leaves ++ r = d.leaves ++ s) :
    c = d ∧ r = s := by
  obtain ⟨a, more⟩ := c
  obtain ⟨b, more'⟩ := d
  rw [Composition.leaves, Composition.leaves, List.append_assoc, List.append_assoc] at h
  obtain ⟨rfl, hmore⟩ := Atom.leaves_append_inj a b h
  obtain ⟨rfl, hrest⟩ := Bars.leaves_append_inj more more' hr hs hmore
  exact ⟨rfl, hrest⟩

theorem Bars.leaves_append_inj (c d : Bars T) {r s : List (Leaf T)} (hr : Stops [.bar] r)
    (hs : Stops [.bar] s) (h : c.leaves ++ r = d.leaves ++ s) : c = d ∧ r = s := by
  cases c with
  | none =>
    cases d with
    | none => exact ⟨rfl, h⟩
    | more bar next rest =>
      rw [show r = _ from h] at hr
      simp [Bars.leaves, stops_cons, leaf] at hr
  | more bar next rest =>
    cases d with
    | none =>
      rw [show s = _ from h.symm] at hs
      simp [Bars.leaves, stops_cons, leaf] at hs
    | more bar' next' rest' =>
      simp only [Bars.leaves, List.cons_append, List.append_assoc, List.cons.injEq, leaf_inj] at h
      obtain ⟨rfl, h⟩ := h
      obtain ⟨rfl, hrest⟩ := Atom.leaves_append_inj next next' h
      obtain ⟨rfl, rfl⟩ := Bars.leaves_append_inj rest rest' hr hs hrest
      exact ⟨rfl, rfl⟩

end

theorem Composition.leaves_injective : Function.Injective (Composition.leaves (T := T)) := by
  intro c d h
  refine (Composition.leaves_append_inj c d (stops_nil _) (stops_nil _) ?_).1
  rw [h]

end PiCalculus.Grammar
