import Mathlib
import PiCalculus.Proofs.Store.Loops
import PiCalculus.Proofs.Typing.Filling
import PiCalculus.Typing

/-! What becomes of one variable of a receive. It is brought together with what the channel carries: by
giving a type to a name that has none yet, where there is one at which either side ends, and otherwise
by comparing both sides. So they are equal afterwards, or nothing has been written. -/

namespace PiCalculus.Store

variable {s t : Store} {n chan var : Name} {elem type : Ty Name}

/-- A name that has no type yet and may be given one, as it is the variable or stands at the end of the
references on one side. -/
def Awaits (s : Store) (elem : Ty Name) (var n : Name) : Prop :=
  s.type n = .untyped ∧
    (n = var ∨ s.terminal? elem = some n ∨ s.terminal? (s.type var) = some n)

def mismatch (s : Store) (chan : Name) (elem : Ty Name) (var : Name) : TypeError :=
  ⟨s.label chan, s.span chan,
    .mismatch (s.unfold (s.deref elem)) (s.unfold (s.deref (s.type var)))⟩

/-- The ways in which an element and a variable are dealt with. -/
inductive Unifies (s : Store) (chan : Name) (elem : Ty Name) (var : Name) : Written → Prop
  /-- References lead from both sides to one name. -/
  | met (h : ∀ u, s.Fills u → u.deref elem = u.deref (u.type var)) :
    Unifies s chan elem var ⟨s, none⟩
  /-- A name is given the type of the other side, from where no reference leads back to it. -/
  | given {n : Name} {type : Ty Name} (awaits : s.Awaits elem var n)
      (back : s.refersTo type n = false)
      (side : type = elem ∨ type = s.type var ∧ s.type var ≠ .untyped)
      (h : ∀ u, s.Fills u → u.type n = type → u.deref elem = u.deref (u.type var)) :
    Unifies s chan elem var (s.setType n type)
  | matched (settled : ∀ n, ¬ s.Awaits elem var n) (h : s.equal elem (s.type var) = true) :
    Unifies s chan elem var ⟨s, none⟩
  | differs (settled : ∀ n, ¬ s.Awaits elem var n) (h : s.equal elem (s.type var) = false) :
    Unifies s chan elem var ⟨s, some (.type (s.mismatch chan elem var))⟩

theorem type_eq_untyped_of_terminal? (hn : s.terminal? type = some n) :
    s.type n = .untyped ↔ (s.deref type).isUntyped = true := by
  rw [(type_of_terminal? hn).2, isUntyped_iff]

theorem unifies_unifyVar (s : Store) (chan : Name) (elem : Ty Name) (var : Name) :
    s.Unifies chan elem var (s.unifyVar chan elem var) := by
  unfold unifyVar
  dsimp only
  split
  · next hunknown =>
    rw [isUntyped_iff] at hunknown
    split
    · next hrefers =>
      refine .met fun u hu => ?_
      rw [hu.deref_eq_of_refersTo hrefers, deref_reference]
    · next hrefers =>
      refine .given ⟨hunknown, .inl rfl⟩ (by simpa using hrefers) (.inl rfl) fun u _ hset => ?_
      rw [hset]
  · next hknown =>
    rw [isUntyped_iff] at hknown
    have kept : ∀ u, s.Fills u → u.type var = s.type var := fun u hu => hu.keeps var hknown
    split
    · next target hderef hterminal =>
      have hunknown := (type_eq_untyped_of_terminal? hterminal).mpr hderef
      split
      · next hsame =>
        have hrefers := hsame.resolve_left fun heq => hknown (heq ▸ hunknown)
        refine .met fun u hu => ?_
        rw [kept u hu, hu.deref_eq_of_terminal? hterminal, hu.deref_eq_of_refersTo hrefers]
      · next hrefers =>
        have hback := (not_or.mp hrefers).2
        refine .given ⟨hunknown, .inr (.inl hterminal)⟩ (by simpa using hback) (.inr ⟨rfl, hknown⟩)
          fun u hu hset => ?_
        rw [kept u hu, hu.deref_eq_of_terminal? hterminal, deref_reference, hset]
    · next helem =>
      split
      · next target hderef hterminal =>
        have hunknown := (type_eq_untyped_of_terminal? hterminal).mpr hderef
        split
        · next hrefers =>
          refine .met fun u hu => ?_
          rw [kept u hu, hu.deref_eq_of_terminal? hterminal, hu.deref_eq_of_refersTo hrefers]
        · next hrefers =>
          refine .given ⟨hunknown, .inr (.inr hterminal)⟩ (by simpa using hrefers) (.inl rfl)
            fun u hu hset => ?_
          rw [kept u hu, hu.deref_eq_of_terminal? hterminal, deref_reference target, hset]
      · next hfound =>
        -- Neither side is left open, so nothing is written and what has been found decides.
        have settled : ∀ n, ¬ s.Awaits elem var n := by
          rintro n ⟨hunknown, rfl | hn | hn⟩
          · exact hknown hunknown
          · exact helem n ((type_eq_untyped_of_terminal? hn).mp hunknown) hn
          · exact hfound n ((type_eq_untyped_of_terminal? hn).mp hunknown) hn
        split
        · next hequal => exact .matched settled hequal
        · next hequal => exact .differs settled (by simpa using hequal)

theorem setType_eq (s : Store) (n : Name) (type : Ty Name) :
    s.setType n type = if s.isConstant n then ⟨s, some (.immutableName (s.label n))⟩
      else ⟨s.modify n fun e => { e with type }, none⟩ := rfl

theorem Awaits.isLive (h : s.Awaits elem var n) (live : s.isLive var) : s.isLive n := by
  rcases h.2 with rfl | hn | hn
  · exact live
  · exact (type_of_terminal? hn).1
  · exact (type_of_terminal? hn).1

theorem equal_of_deref_eq (h : s.deref elem = s.deref type) : s.equal elem type = true :=
  equal_iff_agree.mpr (.of_deref_eq h)

theorem Unifies.loopFree {w : Written} (h : s.Unifies chan elem var w) (free : s.LoopFree) :
    w.store.LoopFree := by
  cases h with
  | met => exact free
  | given _ back =>
    apply free.setType
    rintro m rfl
    exact back
  | matched => exact free
  | differs => exact free

/-- Both sides are equal once nothing has failed, and for that at most one name has got a type, which
had none before. -/
theorem Unifies.of_failure_eq_none {w : Written} (h : s.Unifies chan elem var w)
    (live : s.isLive var) (hw : w.failure = none) :
    w.store.equal elem (w.store.type var) = true ∧
      (w.store = s ∨ ∃ n type, s.Awaits elem var n ∧
        w.store = s.modify n fun e => { e with type }) := by
  cases h with
  | met h => exact ⟨equal_of_deref_eq (h s (.refl s)), .inl rfl⟩
  | @given n type awaits back side h =>
    have ht : s.setType n type = ⟨(s.setType n type).store, none⟩ := by rw [← hw]
    have hset := type_of_setType ht (awaits.isLive live)
    exact ⟨equal_of_deref_eq (h _ (.of_setType ht awaits.1) hset),
      .inr ⟨n, type, awaits, of_setType ht⟩⟩
  | matched _ h => exact ⟨h, .inl rfl⟩
  | differs => cases hw

/-- Nothing is written where something fails, and there are two reasons for it. -/
theorem Unifies.of_failure_eq_some {w : Written} {e : Error} (h : s.Unifies chan elem var w)
    (hw : w.failure = some e) :
    w.store = s ∧ (e = .type (s.mismatch chan elem var) ∨
      ∃ n, s.Awaits elem var n ∧ s.isConstant n = true ∧ e = .immutableName (s.label n)) := by
  cases h with
  | met => cases hw
  | @given n type awaits =>
    rw [setType_eq] at hw ⊢
    split at hw
    · next hconstant =>
      cases hw
      rw [if_pos hconstant]
      exact ⟨rfl, .inr ⟨n, awaits, hconstant, rfl⟩⟩
    · cases hw
  | matched => cases hw
  | differs =>
    cases hw
    exact ⟨rfl, .inl rfl⟩

/-- Both sides do not match exactly if they are not equal and no name can be given a type. -/
theorem Unifies.failure_eq_mismatch_iff {w : Written} (h : s.Unifies chan elem var w) :
    w.failure = some (.type (s.mismatch chan elem var)) ↔
      (∀ n, ¬ s.Awaits elem var n) ∧ s.equal elem (s.type var) = false := by
  cases h with
  | met h => simp [equal_of_deref_eq (h s (.refl s))]
  | @given n type awaits =>
    refine iff_of_false (fun hw => ?_) fun hsettled => hsettled.1 n awaits
    rw [setType_eq] at hw
    split at hw <;> cases hw
  | matched _ h => simp [h]
  | differs settled h => exact iff_of_true rfl ⟨settled, h⟩

/-- Bringing an element and a variable together makes them equal by giving a type to at most one name,
which awaits one, or it writes nothing. They do not match exactly if they are not equal and no name
awaits a type. No chain of references comes to loop. -/
theorem unifyVar_settles (chan : Name) (elem : Ty Name) (free : s.LoopFree)
    (live : s.isLive var) :
    let w := s.unifyVar chan elem var
    (w.failure = none →
      w.store.equal elem (w.store.type var) = true ∧
        (w.store = s ∨ ∃ n type, s.Awaits elem var n ∧
          w.store = s.modify n fun e => { e with type })) ∧
      (∀ e, w.failure = some e →
        w.store = s ∧ (e = .type (s.mismatch chan elem var) ∨
          ∃ n, s.Awaits elem var n ∧ s.isConstant n = true ∧ e = .immutableName (s.label n))) ∧
      (w.failure = some (.type (s.mismatch chan elem var)) ↔
        (∀ n, ¬ s.Awaits elem var n) ∧ s.equal elem (s.type var) = false) ∧
      w.store.LoopFree := by
  intro w
  have h : s.Unifies chan elem var w := s.unifies_unifyVar chan elem var
  exact ⟨h.of_failure_eq_none live, fun e => h.of_failure_eq_some, h.failure_eq_mismatch_iff,
    h.loopFree free⟩

/-- A name at the end of a chain is given a type in which the chain begins. -/
theorem unifyVar_settles_recursive :
    let s : Store := ⟨#[some (Entry.ordinary "c"),
      some { Entry.ordinary "x" with type := .chan (.reference ⟨2⟩) },
      some { Entry.ordinary "a" with type := .reference ⟨3⟩ }, some (Entry.ordinary "b")]⟩
    let w := s.unifyVar ⟨0⟩ (.reference ⟨2⟩) ⟨1⟩
    (s.LoopFree ∧ s.isLive ⟨1⟩) ∧ w.failure = none ∧
      w.store.type ⟨3⟩ = .chan (.reference ⟨2⟩) ∧
      w.store.equal (.reference ⟨2⟩) (w.store.type ⟨1⟩) = true ∧ w.store.LoopFree := by
  intro s w
  have hfree : s.LoopFree := Acyclic.loopFree (not_transGen_pointsTo (by decide +kernel))
  have hlive : s.isLive ⟨1⟩ := by decide
  have hw : w.failure = none := by rfl
  obtain ⟨hequal, -, -, hkept⟩ := unifyVar_settles ⟨0⟩ (.reference ⟨2⟩) hfree hlive
  exact ⟨⟨hfree, hlive⟩, hw, by rfl, (hequal hw).1, hkept⟩

end PiCalculus.Store
