import Mathlib
import PiCalculus.Program
import PiCalculus.Proofs.Reduction.Capture
import PiCalculus.Proofs.Typing.Inference
import PiCalculus.Proofs.Typing.Variables

/-! What unification leaves behind. At every receive the channel and the variables are brought to
agree, and they still agree when all is done, but for names whose types were both unknown when the
receive was visited: nothing ties these to one another, so that each may be given another type. -/

namespace PiCalculus

namespace Store

variable {s t : Store} {chan var : Name}

/-- The first store is filled in to the second one, and in all that this may become the element and
the variable are found to agree, as far as some pairs are taken to agree. -/
structure Joins (assumed : List (Name × Name)) (elem : Ty Name) (var : Name) (s t : Store) : Prop
    where
  shallow : t.Shallow
  fills : s.Fills t
  agree : ∀ u, t.Fills u → ∀ k, u.equalWithin k assumed elem (u.type var) = true

namespace Joins

variable {assumed : List (Name × Name)} {elem : Ty Name} {target : Name}

theorem of_deref_eq (hs : s.Shallow) (h : ∀ u, s.Fills u → u.deref elem = u.deref (u.type var)) :
    Joins assumed elem var s s :=
  ⟨hs, .refl s, fun u hu k => (Agree.of_deref_eq (h u hu)).equalWithin k assumed⟩

/-- A name that one side ends with is led to the other side. -/
theorem of_setType {type : Ty Name} (hs : s.Shallow) (htype : type.Shallow (s.isLive · = true))
    (htarget : s.isLive target) (hu : s.type target = .untyped) (known : type ≠ .untyped)
    (ht : s.setType target type = ⟨t, none⟩)
    (h : ∀ u, s.Fills u → u.type target = type → u.deref elem = u.deref (u.type var)) :
    Joins assumed elem var s t := by
  have hfills := Fills.of_setType ht hu
  have hset := type_of_setType ht htarget
  refine ⟨hs.of_setType ht htype, hfills, fun u hfill k => ?_⟩
  have hkeep := hfill.keeps target (by rwa [hset])
  exact (Agree.of_deref_eq (h u (hfills.trans hfill) (hkeep.trans hset))).equalWithin k assumed

end Joins

theorem unifyVar_joins (hs : s.Shallow) {elem : Name} (helem : s.isLive elem)
    (hvar : s.isLive var) {assumed : List (Name × Name)} (hassumed : s.undecided ⊆ assumed)
    (h : s.unifyVar chan (.reference elem) var = ⟨t, none⟩) :
    Joins assumed (.reference elem) var s t := by
  have hways := s.unifies_unifyVar chan (.reference elem) var
  generalize s.unifyVar chan (.reference elem) var = w at h hways
  cases hways with
  | met hmet =>
    cases h
    exact .of_deref_eq hs hmet
  | given awaits _ side hgiven =>
    have hlive := awaits.isLive hvar
    rcases side with rfl | ⟨rfl, known⟩
    · exact .of_setType hs (.reference helem) hlive awaits.1 (by simp) h hgiven
    · exact .of_setType hs (hs var) hlive awaits.1 known h hgiven
  | matched settled hequal =>
    cases h
    -- With nothing left open the comparison has gone through, and it does so in any store that is
    -- filled in further.
    have hknown : s.type var ≠ .untyped := fun hunknown => settled var ⟨hunknown, .inl rfl⟩
    have hformed := ((hs var).formed).resolve_left hknown
    refine ⟨hs, .refl s, fun u hu k => ?_⟩
    rw [hu.keeps var hknown]
    exact hu.equalWithin hs.wellFormed (.reference helem) hformed (equal_iff_agree.mp hequal) k
      hassumed
  | differs => cases h

theorem writeEach_unifyVar_joins {ns vars : List Name} (hs : s.Shallow)
    (hns : ∀ n ∈ ns, s.isLive n) (hvars : ∀ x ∈ vars, s.isLive x) {assumed : List (Name × Name)}
    (hassumed : s.undecided ⊆ assumed)
    (h : s.writeEach (fun s (elem, var) => s.unifyVar chan elem var)
      ((ns.map .reference).zip vars) = ⟨t, none⟩) :
    t.Shallow ∧ s.Fills t ∧ ∀ u, t.Fills u → ∀ q ∈ (ns.map Ty.reference).zip vars, ∀ k,
      u.equalWithin k assumed q.1 (u.type q.2) = true := by
  induction ns generalizing s vars with
  | nil =>
    cases h
    exact ⟨hs, .refl _, by simp⟩
  | cons n ns ih =>
    cases vars with
    | nil =>
      cases h
      exact ⟨hs, .refl _, by simp⟩
    | cons x vars =>
      obtain ⟨v, hfirst, hrest⟩ := of_writeEach_cons h
      obtain ⟨hn, hns⟩ := List.forall_mem_cons.mp hns
      obtain ⟨hx, hvars⟩ := List.forall_mem_cons.mp hvars
      have hjoin := unifyVar_joins hs hn hx hassumed hfirst
      have hlive := hjoin.fills.retypes.isLive_eq
      obtain ⟨hshallow, hfills, hagree⟩ := ih hjoin.shallow
        (fun m hm => (hlive m).trans (hns m hm)) (fun y hy => (hlive y).trans (hvars y hy))
        (fun q hq => hassumed (hjoin.fills.undecided_subset hq)) hrest
      refine ⟨hshallow, hjoin.fills.trans hfills, fun u hu => ?_⟩
      rw [List.map_cons, List.zip_cons_cons]
      exact List.forall_mem_cons.mpr ⟨hjoin.agree u (hfills.trans hu), hagree u hu⟩

/-- A type that is a channel after all references carries names that are alive. -/
theorem Shallow.deref_eq_chan (hs : s.Shallow) {n : Name} {elem : Ty Name}
    (h : s.deref (s.type n) = .chan elem) :
    ∃ ns, elem = .carrying ns ∧ ∀ m ∈ ns, s.isLive m := by
  have hshallow := hs.deref (hs n)
  rw [h] at hshallow
  cases hshallow with
  | chan hns => exact ⟨_, rfl, hns⟩

/-- At a receive the channel carries as many names as there are variables, and one by one they are
found to agree for good, as far as names that were undecided there are taken to agree. -/
theorem unifyReceive_joins {vars : List Name} (hs : s.Shallow) (hvars : ∀ x ∈ vars, s.isLive x)
    (h : s.unifyReceive chan vars = ⟨t, none⟩) :
    t.Shallow ∧ s.Fills t ∧ ∀ u, t.Fills u → ∃ elem, u.deref (u.type chan) = .chan elem ∧
      elem.arity = vars.length ∧ ∀ q ∈ elem.elements.zip vars, ∀ k,
        u.equalWithin k s.undecided q.1 (u.type q.2) = true := by
  rw [unifyReceive] at h
  split at h
  · next elem helem =>
    split at h
    · next harity =>
      obtain ⟨ns, rfl, hns⟩ := hs.deref_eq_chan helem
      rw [Ty.elements_carrying] at h
      obtain ⟨hshallow, hfills, hagree⟩ := writeEach_unifyVar_joins hs hns hvars (fun q hq => hq) h
      refine ⟨hshallow, hfills, fun u hu => ⟨.carrying ns, ?_, harity, ?_⟩⟩
      · have hsu := hfills.trans hu
        have hknown : s.type chan ≠ .untyped := by
          intro hunknown
          rw [hunknown, deref_untyped] at helem
          cases helem
        rw [hsu.keeps chan hknown, hsu.deref_eq (by simp [helem]), helem]
      · rw [Ty.elements_carrying]
        exact hagree u hu
    · cases h
  · cases h

/-- What every stretch of the pass keeps. -/
theorem unifyReceive_keeps {u : Store} {r : Name × List Name} (hvars : ∀ x ∈ r.2, s.isLive x)
    (h : t.Shallow ∧ s.Fills t) (hu : t.unifyReceive r.1 r.2 = ⟨u, none⟩) :
    u.Shallow ∧ s.Fills u := by
  obtain ⟨ht, hst⟩ := h
  have hlive := hst.retypes.isLive_eq
  obtain ⟨hshallow, hfills, -⟩ := unifyReceive_joins ht (fun x hx => (hlive x).trans (hvars x hx)) hu
  exact ⟨hshallow, hst.trans hfills⟩

/-- The store when unification has visited so many receives. -/
def unifiedTo (s : Store) (p : Process Name) (i : Nat) : Store :=
  (s.writeEach (fun s (chan, vars) => s.unifyReceive chan vars) (p.receives.take i)).store

/-- Whether two types agree if some pairs of names are taken to agree. -/
def equalAssuming (s : Store) (assumed : List (Name × Name)) (t u : Ty Name) : Bool :=
  s.equalWithin (s.comparisonDepth t u) assumed t u

theorem unify_joins {p : Process Name} (hs : s.Shallow) (live : ∀ n ∈ p.occurrences, s.isLive n)
    (h : s.unify p = ⟨t, none⟩) :
    t.Shallow ∧ s.Fills t ∧ ∀ i chan vars, p.receives[i]? = some (chan, vars) →
      ∃ elem, t.deref (t.type chan) = .chan elem ∧ elem.arity = vars.length ∧
        ∀ q ∈ elem.elements.zip vars,
          t.equalAssuming (s.unifiedTo p i).undecided q.1 (t.type q.2) = true := by
  have hvars : ∀ r ∈ p.receives, ∀ x ∈ r.2, s.isLive x := fun r hr x hx =>
    live x ((Process.mem_occurrences_of_receives hr).2 x hx)
  -- Every stretch of the pass keeps types as names can have them and only fills the store in.
  have stretch : ∀ {u v : Store} {rs : List (Name × List Name)}, s.Fills u → u.Shallow →
      (∀ r ∈ rs, r ∈ p.receives) →
      u.writeEach (fun s (chan, vars) => s.unifyReceive chan vars) rs = ⟨v, none⟩ →
      v.Shallow ∧ u.Fills v := by
    intro u v rs hsu hu hrs hv
    refine writeEach_induction (motive := fun w => w.Shallow ∧ u.Fills w) hv ⟨hu, .refl u⟩ ?_
    intro r hr w w' hw hstep
    have hlive := hsu.retypes.isLive_eq
    exact unifyReceive_keeps (fun x hx => (hlive x).trans (hvars r (hrs r hr) x hx)) hw hstep
  obtain ⟨hshallow, hfills⟩ := stretch (.refl s) hs (fun r hr => hr) h
  refine ⟨hshallow, hfills, fun i chan vars hi => ?_⟩
  obtain ⟨before, after, hbefore, hstep, hrest⟩ := of_writeEach_getElem? h hi
  obtain ⟨hbeforeShallow, hbeforeFills⟩ := stretch (.refl s) hs
    (fun r hr => List.mem_of_mem_take hr) hbefore
  have hlive := hbeforeFills.retypes.isLive_eq
  obtain ⟨hafterShallow, hafterFills, hjoin⟩ := unifyReceive_joins hbeforeShallow
    (fun x hx => (hlive x).trans (hvars _ (List.mem_of_getElem? hi) x hx)) hstep
  obtain ⟨-, hrestFills⟩ := stretch (hbeforeFills.trans hafterFills) hafterShallow
    (fun r hr => List.mem_of_mem_drop hr) hrest
  obtain ⟨elem, helem, harity, hagree⟩ := hjoin t hrestFills
  refine ⟨elem, helem, harity, fun q hq => ?_⟩
  rw [unifiedTo, hbefore]
  exact hagree q hq _

end Store
end PiCalculus
