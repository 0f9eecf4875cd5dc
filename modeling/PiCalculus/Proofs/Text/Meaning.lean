import Mathlib
import PiCalculus.Proofs.Text.Grammar

/-! The process that a derivation stands for, over whatever it makes of a name and of its hint if it
has one; and derivations with other things at their leaves. -/

namespace PiCalculus.Grammar

variable {T U : TokenKind → Type} {ν : Type}

def Separated.elements {α : Type} (l : Separated T α) : List α := l.first :: l.more.map (·.2)

def Names.elements : Names T → List (T .identifier)
  | none => []
  | some l => Separated.elements l

section denote

variable (name : T .identifier → Option (T .identifier) → ν)

def Binder.denote (b : Binder T) : ν := name b.name (b.hint.map (·.2))

mutual

def Atom.denote : Atom T → Process ν
  | .nil _ => .nil
  | .replicate _ body => .replicate body.denote
  | .restrict _ _ binders _ body =>
    .restrictAll (binders.elements.map (Binder.denote name)) body.denote
  | .send chan _ values _ => .send (name chan none) (values.elements.map (name · none))
  | .receive chan _ vars _ _ body =>
    .receive (name chan none) (vars.elements.map (name · none)) body.denote
  | .group _ inside _ => inside.denote

def Composition.denote : Composition T → Process ν
  | .mk first more => more.denote first.denote

/-- What a process becomes by bars behind it, which group to the left. -/
def Bars.denote : Bars T → Process ν → Process ν
  | .none, left => left
  | .more _ next rest, left => rest.denote (.par [left, next.denote])

end

variable {μ : Type} (g : ν → μ)

theorem map_restrictAll (ns : List ν) (p : Process ν) :
    (Process.restrictAll ns p).map g = .restrictAll (ns.map g) (p.map g) := by
  induction ns with
  | nil => rfl
  | cons n ns ih =>
    rw [Process.restrictAll, List.foldr_cons, Process.map]
    exact congrArg (Process.restrict (g n)) ih

mutual

theorem Atom.map_denote (a : Atom T) :
    (a.denote name).map g = a.denote fun n h => g (name n h) := by
  cases a with
  | nil zero => rw [Atom.denote, Atom.denote, Process.map]
  | replicate bang body => rw [Atom.denote, Atom.denote, Process.map, Atom.map_denote body]
  | restrict left new binders right body =>
    rw [Atom.denote, Atom.denote, map_restrictAll, List.map_map, Atom.map_denote body]
    rfl
  | send chan less values greater =>
    rw [Atom.denote, Atom.denote, Process.map, List.map_map]
    rfl
  | receive chan left vars right dot body =>
    rw [Atom.denote, Atom.denote, Process.map, List.map_map, Atom.map_denote body]
    rfl
  | group left inside right => rw [Atom.denote, Atom.denote, Composition.map_denote inside]

theorem Composition.map_denote (c : Composition T) :
    (c.denote name).map g = c.denote fun n h => g (name n h) := by
  obtain ⟨first, more⟩ := c
  rw [Composition.denote, Composition.denote, Bars.map_denote more, Atom.map_denote first]

theorem Bars.map_denote (c : Bars T) (left : Process ν) :
    (c.denote name left).map g = c.denote (fun n h => g (name n h)) (left.map g) := by
  cases c with
  | none => rfl
  | more bar next rest =>
    rw [Bars.denote, Bars.denote, Bars.map_denote rest, Process.map, List.map_cons, List.map_cons,
      List.map_nil, Atom.map_denote next]

end

end denote

section map

variable (f : ∀ k, T k → U k)

def Leaf.map (l : Leaf T) : Leaf U := ⟨l.1, f _ l.2⟩

def Separated.map {α β : Type} (g : α → β) (l : Separated T α) : Separated U β :=
  ⟨g l.first, l.more.map fun m => (f _ m.1, g m.2)⟩

def Names.map (ns : Names T) : Names U := Option.map (Separated.map f (f _)) ns

def Binder.map (b : Binder T) : Binder U := ⟨f _ b.name, b.hint.map fun h => (f _ h.1, f _ h.2)⟩

mutual

def Atom.map : Atom T → Atom U
  | .nil zero => .nil (f _ zero)
  | .replicate bang body => .replicate (f _ bang) body.map
  | .restrict left new binders right body =>
    .restrict (f _ left) (f _ new) (binders.map f (Binder.map f)) (f _ right) body.map
  | .send chan less values greater => .send (f _ chan) (f _ less) (values.map f) (f _ greater)
  | .receive chan left vars right dot body =>
    .receive (f _ chan) (f _ left) (vars.map f) (f _ right) (f _ dot) body.map
  | .group left inside right => .group (f _ left) inside.map (f _ right)

def Composition.map : Composition T → Composition U
  | .mk first more => .mk first.map more.map

def Bars.map : Bars T → Bars U
  | .none => .none
  | .more bar next rest => .more (f _ bar) next.map rest.map

end

theorem moreLeaves_map {α β : Type} {g : α → β} {each : α → List (Leaf T)}
    {each' : β → List (Leaf U)} (h : ∀ a, each' (g a) = (each a).map (Leaf.map f))
    (more : List (T .comma × α)) :
    moreLeaves each' (more.map fun m => (f _ m.1, g m.2)) =
      (moreLeaves each more).map (Leaf.map f) := by
  rw [moreLeaves, moreLeaves, List.flatMap_map, List.map_flatMap]
  refine List.flatMap_congr fun m _ => ?_
  rw [h, List.map_cons]
  rfl

theorem Separated.leaves_map {α β : Type} {g : α → β} {each : α → List (Leaf T)}
    {each' : β → List (Leaf U)} (h : ∀ a, each' (g a) = (each a).map (Leaf.map f))
    (l : Separated T α) : (l.map f g).leaves each' = (l.leaves each).map (Leaf.map f) := by
  rw [Separated.map, Separated.leaves, Separated.leaves, h, moreLeaves_map f h, List.map_append]

theorem Names.leaves_map (ns : Names T) : (ns.map f).leaves = ns.leaves.map (Leaf.map f) := by
  cases ns with
  | none => rfl
  | some l =>
    have hname : ∀ n, nameLeaves (f _ n) = (nameLeaves n).map (Leaf.map f) := fun _ => rfl
    exact Separated.leaves_map f hname l

theorem Binder.leaves_map (b : Binder T) : (b.map f).leaves = b.leaves.map (Leaf.map f) := by
  obtain ⟨name, _ | ⟨colon, hint⟩⟩ := b <;> rfl

mutual

theorem Atom.leaves_map (a : Atom T) : (a.map f).leaves = a.leaves.map (Leaf.map f) := by
  cases a with
  | nil zero => rfl
  | replicate bang body =>
    rw [Atom.map, Atom.leaves, Atom.leaves, List.map_cons, Atom.leaves_map body]
    rfl
  | restrict left new binders right body =>
    rw [Atom.map, Atom.leaves, Atom.leaves, Separated.leaves_map f (Binder.leaves_map f),
      Atom.leaves_map body]
    simp [Leaf.map, leaf]
  | send chan less values greater =>
    rw [Atom.map, Atom.leaves, Atom.leaves, Names.leaves_map]
    simp [Leaf.map, leaf]
  | receive chan left vars right dot body =>
    rw [Atom.map, Atom.leaves, Atom.leaves, Names.leaves_map, Atom.leaves_map body]
    simp [Leaf.map, leaf]
  | group left inside right =>
    rw [Atom.map, Atom.leaves, Atom.leaves, Composition.leaves_map inside]
    simp [Leaf.map, leaf]

theorem Composition.leaves_map (c : Composition T) :
    (c.map f).leaves = c.leaves.map (Leaf.map f) := by
  obtain ⟨first, more⟩ := c
  rw [Composition.map, Composition.leaves, Composition.leaves, Atom.leaves_map first,
    Bars.leaves_map more, List.map_append]

theorem Bars.leaves_map (c : Bars T) : (c.map f).leaves = c.leaves.map (Leaf.map f) := by
  cases c with
  | none => rfl
  | more bar next rest =>
    rw [Bars.map, Bars.leaves, Bars.leaves, Atom.leaves_map next, Bars.leaves_map rest]
    simp [Leaf.map, leaf]

end

theorem Separated.elements_map {α β : Type} (g : α → β) (l : Separated T α) :
    (l.map f g).elements = l.elements.map g := by
  simp [Separated.map, Separated.elements]

theorem Names.elements_map (ns : Names T) : (ns.map f).elements = ns.elements.map (f _) := by
  cases ns with
  | none => rfl
  | some l => exact Separated.elements_map f (f _) l

variable (name : U .identifier → Option (U .identifier) → ν)

theorem Binder.denote_map (b : Binder T) :
    (b.map f).denote name = b.denote fun n h => name (f _ n) (h.map (f _)) := by
  obtain ⟨n, _ | ⟨colon, hint⟩⟩ := b <;> rfl

mutual

theorem Atom.denote_map (a : Atom T) :
    (a.map f).denote name = a.denote fun n h => name (f _ n) (h.map (f _)) := by
  cases a with
  | nil zero => rfl
  | replicate bang body => rw [Atom.map, Atom.denote, Atom.denote, Atom.denote_map body]
  | restrict left new binders right body =>
    rw [Atom.map, Atom.denote, Atom.denote, Atom.denote_map body, Separated.elements_map,
      List.map_map]
    congr 1
    exact List.map_congr_left fun b _ => Binder.denote_map f name b
  | send chan less values greater =>
    rw [Atom.map, Atom.denote, Atom.denote, Names.elements_map, List.map_map]
    rfl
  | receive chan left vars right dot body =>
    rw [Atom.map, Atom.denote, Atom.denote, Atom.denote_map body, Names.elements_map, List.map_map]
    rfl
  | group left inside right => rw [Atom.map, Atom.denote, Atom.denote, Composition.denote_map inside]

theorem Composition.denote_map (c : Composition T) :
    (c.map f).denote name = c.denote fun n h => name (f _ n) (h.map (f _)) := by
  obtain ⟨first, more⟩ := c
  rw [Composition.map, Composition.denote, Composition.denote, Atom.denote_map first,
    Bars.denote_map more]

theorem Bars.denote_map (c : Bars T) (left : Process ν) :
    (c.map f).denote name left = c.denote (fun n h => name (f _ n) (h.map (f _))) left := by
  cases c with
  | none => rfl
  | more bar next rest =>
    rw [Bars.map, Bars.denote, Bars.denote, Atom.denote_map next, Bars.denote_map rest]

end

theorem exists_leaf {l : Leaf T} {k : TokenKind} {u : U k} (h : l.map f = leaf u) :
    ∃ t : T k, leaf t = l ∧ f k t = u := by
  obtain ⟨j, t⟩ := l
  cases h
  exact ⟨t, rfl, rfl⟩

theorem exists_moreLeaves {α β : Type} {g : α → β} {each : α → List (Leaf T)}
    {each' : β → List (Leaf U)}
    (heach : ∀ b ls, ls.map (Leaf.map f) = each' b → ∃ a, each a = ls ∧ g a = b)
    (more : List (U .comma × β)) {ls : List (Leaf T)}
    (h : ls.map (Leaf.map f) = moreLeaves each' more) :
    ∃ more', moreLeaves each more' = ls ∧ more'.map (fun m => (f _ m.1, g m.2)) = more := by
  induction more generalizing ls with
  | nil => exact ⟨[], (List.map_eq_nil_iff.mp h).symm, rfl⟩
  | cons m more ih =>
    rw [moreLeaves, List.flatMap_cons, List.cons_append] at h
    obtain ⟨l, ls, rfl, hl, h⟩ := List.map_eq_cons_iff.mp h
    obtain ⟨as, bs, rfl, has, hbs⟩ := List.map_eq_append_iff.mp h
    obtain ⟨comma, rfl, hcomma⟩ := exists_leaf f hl
    obtain ⟨a, rfl, ha⟩ := heach _ _ has
    obtain ⟨more', rfl, hmore⟩ := ih hbs
    refine ⟨(comma, a) :: more', by simp [moreLeaves], ?_⟩
    rw [List.map_cons, hmore, hcomma, ha]

theorem Separated.exists_map_eq {α β : Type} {g : α → β} {each : α → List (Leaf T)}
    {each' : β → List (Leaf U)}
    (heach : ∀ b ls, ls.map (Leaf.map f) = each' b → ∃ a, each a = ls ∧ g a = b)
    (l : Separated U β) {ls : List (Leaf T)} (h : ls.map (Leaf.map f) = l.leaves each') :
    ∃ m : Separated T α, m.leaves each = ls ∧ m.map f g = l := by
  obtain ⟨first, more⟩ := l
  obtain ⟨as, bs, rfl, has, hbs⟩ := List.map_eq_append_iff.mp h
  obtain ⟨a, rfl, ha⟩ := heach _ _ has
  obtain ⟨more', rfl, hmore⟩ := exists_moreLeaves f heach more hbs
  exact ⟨⟨a, more'⟩, rfl, by rw [Separated.map, ha, hmore]⟩

theorem Names.exists_map_eq (ns : Names U) {ls : List (Leaf T)}
    (h : ls.map (Leaf.map f) = ns.leaves) : ∃ ms : Names T, ms.leaves = ls ∧ ms.map f = ns := by
  cases ns with
  | none => exact ⟨none, (List.map_eq_nil_iff.mp h).symm, rfl⟩
  | some l =>
    have hname : ∀ (u : U .identifier) (ls : List (Leaf T)), ls.map (Leaf.map f) = nameLeaves u →
        ∃ t, nameLeaves t = ls ∧ f _ t = u := by
      intro u ls h
      obtain ⟨l, rfl, hl⟩ := List.map_eq_singleton_iff.mp h
      obtain ⟨t, rfl, ht⟩ := exists_leaf f hl
      exact ⟨t, rfl, ht⟩
    obtain ⟨m, hm, hl⟩ := Separated.exists_map_eq f hname l h
    exact ⟨some m, hm, congrArg some hl⟩

theorem Binder.exists_map_eq (b : Binder U) (ls : List (Leaf T))
    (h : ls.map (Leaf.map f) = b.leaves) : ∃ c : Binder T, c.leaves = ls ∧ c.map f = b := by
  obtain ⟨name, _ | ⟨colon, hint⟩⟩ := b
  · obtain ⟨l, rfl, hl⟩ := List.map_eq_singleton_iff.mp h
    obtain ⟨t, rfl, rfl⟩ := exists_leaf f hl
    exact ⟨⟨t, none⟩, rfl, rfl⟩
  · obtain ⟨l, ls, rfl, hl, h⟩ := List.map_eq_cons_iff.mp h
    obtain ⟨m, ls, rfl, hm, h⟩ := List.map_eq_cons_iff.mp h
    obtain ⟨n, rfl, hn⟩ := List.map_eq_singleton_iff.mp h
    obtain ⟨t, rfl, rfl⟩ := exists_leaf f hl
    obtain ⟨c, rfl, rfl⟩ := exists_leaf f hm
    obtain ⟨g, rfl, rfl⟩ := exists_leaf f hn
    exact ⟨⟨t, some (c, g)⟩, rfl, rfl⟩

mutual

/-- Leaves may be filled with anything that becomes what they hold. -/
theorem Atom.exists_map_eq (a : Atom U) {ls : List (Leaf T)}
    (h : ls.map (Leaf.map f) = a.leaves) : ∃ b : Atom T, b.leaves = ls ∧ b.map f = a := by
  cases a with
  | nil zero =>
    obtain ⟨l, rfl, hl⟩ := List.map_eq_singleton_iff.mp h
    obtain ⟨t, rfl, rfl⟩ := exists_leaf f hl
    exact ⟨.nil t, rfl, rfl⟩
  | replicate bang body =>
    obtain ⟨l, ls, rfl, hl, hbody⟩ := List.map_eq_cons_iff.mp h
    obtain ⟨t, rfl, rfl⟩ := exists_leaf f hl
    obtain ⟨body, rfl, rfl⟩ := Atom.exists_map_eq body hbody
    exact ⟨.replicate t body, rfl, rfl⟩
  | restrict left new binders right body =>
    obtain ⟨l, ls, rfl, hl, h⟩ := List.map_eq_cons_iff.mp h
    obtain ⟨m, ls, rfl, hm, h⟩ := List.map_eq_cons_iff.mp h
    obtain ⟨as, ls, rfl, has, h⟩ := List.map_eq_append_iff.mp h
    obtain ⟨n, ls, rfl, hn, hbody⟩ := List.map_eq_cons_iff.mp h
    obtain ⟨left, rfl, rfl⟩ := exists_leaf f hl
    obtain ⟨new, rfl, rfl⟩ := exists_leaf f hm
    obtain ⟨right, rfl, rfl⟩ := exists_leaf f hn
    obtain ⟨binders, rfl, rfl⟩ := Separated.exists_map_eq f (Binder.exists_map_eq f) binders has
    obtain ⟨body, rfl, rfl⟩ := Atom.exists_map_eq body hbody
    exact ⟨.restrict left new binders right body, rfl, rfl⟩
  | send chan less values greater =>
    obtain ⟨l, ls, rfl, hl, h⟩ := List.map_eq_cons_iff.mp h
    obtain ⟨m, ls, rfl, hm, h⟩ := List.map_eq_cons_iff.mp h
    obtain ⟨as, ls, rfl, has, h⟩ := List.map_eq_append_iff.mp h
    obtain ⟨n, rfl, hn⟩ := List.map_eq_singleton_iff.mp h
    obtain ⟨chan, rfl, rfl⟩ := exists_leaf f hl
    obtain ⟨less, rfl, rfl⟩ := exists_leaf f hm
    obtain ⟨greater, rfl, rfl⟩ := exists_leaf f hn
    obtain ⟨values, rfl, rfl⟩ := Names.exists_map_eq f values has
    exact ⟨.send chan less values greater, rfl, rfl⟩
  | receive chan left vars right dot body =>
    obtain ⟨l, ls, rfl, hl, h⟩ := List.map_eq_cons_iff.mp h
    obtain ⟨m, ls, rfl, hm, h⟩ := List.map_eq_cons_iff.mp h
    obtain ⟨as, ls, rfl, has, h⟩ := List.map_eq_append_iff.mp h
    obtain ⟨n, ls, rfl, hn, h⟩ := List.map_eq_cons_iff.mp h
    obtain ⟨o, ls, rfl, ho, hbody⟩ := List.map_eq_cons_iff.mp h
    obtain ⟨chan, rfl, rfl⟩ := exists_leaf f hl
    obtain ⟨left, rfl, rfl⟩ := exists_leaf f hm
    obtain ⟨right, rfl, rfl⟩ := exists_leaf f hn
    obtain ⟨dot, rfl, rfl⟩ := exists_leaf f ho
    obtain ⟨vars, rfl, rfl⟩ := Names.exists_map_eq f vars has
    obtain ⟨body, rfl, rfl⟩ := Atom.exists_map_eq body hbody
    exact ⟨.receive chan left vars right dot body, rfl, rfl⟩
  | group left inside right =>
    obtain ⟨l, ls, rfl, hl, h⟩ := List.map_eq_cons_iff.mp h
    obtain ⟨as, ls, rfl, has, h⟩ := List.map_eq_append_iff.mp h
    obtain ⟨n, rfl, hn⟩ := List.map_eq_singleton_iff.mp h
    obtain ⟨left, rfl, rfl⟩ := exists_leaf f hl
    obtain ⟨right, rfl, rfl⟩ := exists_leaf f hn
    obtain ⟨inside, rfl, rfl⟩ := Composition.exists_map_eq inside has
    exact ⟨.group left inside right, rfl, rfl⟩

theorem Composition.exists_map_eq (c : Composition U) {ls : List (Leaf T)}
    (h : ls.map (Leaf.map f) = c.leaves) : ∃ d : Composition T, d.leaves = ls ∧ d.map f = c := by
  obtain ⟨first, more⟩ := c
  obtain ⟨as, bs, rfl, has, hbs⟩ := List.map_eq_append_iff.mp h
  obtain ⟨first, rfl, rfl⟩ := Atom.exists_map_eq first has
  obtain ⟨more, rfl, rfl⟩ := Bars.exists_map_eq more hbs
  exact ⟨.mk first more, rfl, rfl⟩

theorem Bars.exists_map_eq (c : Bars U) {ls : List (Leaf T)}
    (h : ls.map (Leaf.map f) = c.leaves) : ∃ d : Bars T, d.leaves = ls ∧ d.map f = c := by
  cases c with
  | none => exact ⟨.none, (List.map_eq_nil_iff.mp h).symm, rfl⟩
  | more bar next rest =>
    obtain ⟨l, ls, rfl, hl, h⟩ := List.map_eq_cons_iff.mp h
    obtain ⟨as, bs, rfl, has, hbs⟩ := List.map_eq_append_iff.mp h
    obtain ⟨bar, rfl, rfl⟩ := exists_leaf f hl
    obtain ⟨next, rfl, rfl⟩ := Atom.exists_map_eq next has
    obtain ⟨rest, rfl, rfl⟩ := Bars.exists_map_eq rest hbs
    exact ⟨.more bar next rest, rfl, rfl⟩

end

end map

end PiCalculus.Grammar
