import Mathlib
import PiCalculus.Proofs.Store.Acyclic
import PiCalculus.Proofs.Store.Writing

/-! Chains of references that come back to where they have been. There is none as long as a name is
made to refer to another one only where no chain leads from there to the name itself. -/

namespace PiCalculus

section edge

variable {α : Type} {r r' : α → α → Prop} {x y : α}

/-- What a relation reaches with one more edge it reaches without, or by way of this edge. -/
theorem transGen_of_edge (h : ∀ a b, r' a b → r a b ∨ a = x ∧ b = y) {a b : α}
    (path : Relation.TransGen r' a b) :
    Relation.TransGen r a b ∨ Relation.ReflTransGen r a x ∧ Relation.ReflTransGen r y b := by
  induction path with
  | single hab =>
    rcases h _ _ hab with hab | ⟨rfl, rfl⟩
    · exact .inl (.single hab)
    · exact .inr ⟨.refl, .refl⟩
  | tail _ hbc ih =>
    rcases h _ _ hbc with hbc | ⟨rfl, rfl⟩
    · exact ih.imp (·.tail hbc) fun ⟨hax, hyb⟩ => ⟨hax, hyb.tail hbc⟩
    · refine .inr ⟨?_, .refl⟩
      exact ih.elim (·.to_reflTransGen) (·.1)

/-- A relation without cycles gets none by an edge that no path leads back over. -/
theorem not_transGen_of_edge (acyclic : ∀ a, ¬ Relation.TransGen r a a)
    (h : ∀ a b, r' a b → r a b ∨ a = x ∧ b = y) (back : ¬ Relation.ReflTransGen r y x) (a : α) :
    ¬ Relation.TransGen r' a a := by
  intro cycle
  rcases transGen_of_edge h cycle with hold | ⟨hax, hya⟩
  · exact acyclic a hold
  · exact back (hya.trans hax)

end edge

namespace Store

variable {s t : Store} {n m : Name} {type : Ty Name}

/-- The type of a name is a reference to another one and nothing else. -/
def Forwards (s : Store) (n m : Name) : Prop := s.type n = .reference m

instance : Decidable (s.Forwards n m) :=
  match h : s.type n with
  | .reference m' => decidable_of_iff (m' = m) (by rw [Forwards, h, Ty.reference.injEq])
  | .untyped | .base _ | .chan _ | .composite _ => .isFalse (by rw [Forwards, h]; nofun)

/-- No chain of references comes back to a name. -/
def LoopFree (s : Store) : Prop := ∀ n, ¬ Relation.TransGen s.Forwards n n

theorem isLive_of_forwards (h : s.Forwards n m) : s.isLive n := by
  by_contra hn
  have hunknown := type_of_not_isLive (Bool.eq_false_iff.mpr hn)
  rw [Forwards, hunknown] at h
  cases h

theorem LoopFree.mono (h : s.LoopFree) (fewer : ∀ a b, t.Forwards a b → s.Forwards a b) :
    t.LoopFree := fun n cycle => h n (Relation.TransGen.mono fewer n n cycle)

theorem Acyclic.loopFree (h : s.Acyclic) : s.LoopFree := by
  have forwarded : ∀ a b, s.Forwards a b → s.PointsTo a b := fun a b hab => by
    rw [PointsTo, hab, Ty.references]
    exact List.mem_singleton_self b
  exact fun n cycle => h n (Relation.TransGen.mono forwarded n n cycle)

theorem loopFree_of_not_forwards (h : ∀ n m, ¬ s.Forwards n m) : s.LoopFree := by
  intro n cycle
  obtain ⟨m, hnm, -⟩ := Relation.TransGen.head'_iff.mp cycle
  exact h n m hnm

theorem LoopFree.retain (h : s.LoopFree) (owned : List Name) : (s.retain owned).LoopFree := by
  apply h.mono
  intro a b hab
  unfold Forwards Store.type at hab ⊢
  rw [get?_retain] at hab
  split at hab
  · exact hab
  · cases hab

section chain

variable {ns : List Name}

theorem mem_chainWithin (h : (m :: ns).IsChain s.Forwards) {k : Nat} (hk : ns.length < k) {x : Name}
    (hx : x ∈ m :: ns) : x ∈ (s.chainWithin k (.reference m)).names := by
  induction ns generalizing m k with
  | nil =>
    obtain ⟨k, rfl⟩ := Nat.exists_eq_succ_of_ne_zero (Nat.ne_zero_of_lt hk)
    obtain rfl := List.mem_singleton.mp hx
    rw [chainWithin]
    cases s.get? x <;> simp
  | cons c ns ih =>
    obtain ⟨k, rfl⟩ := Nat.exists_eq_succ_of_ne_zero (Nat.ne_zero_of_lt hk)
    rw [List.isChain_cons_cons] at h
    obtain ⟨hmc, hrest⟩ := h
    obtain ⟨e, he⟩ := Option.isSome_iff_exists.mp (isLive_of_forwards hmc)
    rw [Forwards, type_of_get? he] at hmc
    rw [chainWithin, he]
    dsimp only
    rw [hmc]
    rcases List.mem_cons.mp hx with rfl | hx
    · exact List.mem_cons_self
    · exact List.mem_cons_of_mem _ (ih hrest (Nat.lt_of_succ_lt_succ hk) hx)

theorem LoopFree.nodup_of_isChain (h : s.LoopFree) (hchain : ns.IsChain s.Forwards) : ns.Nodup := by
  have hreach : ns.IsChain (Relation.TransGen s.Forwards) := hchain.imp fun _ _ => .single
  have hpairwise := List.isChain_iff_pairwise.mp hreach
  apply hpairwise.imp
  rintro a b hab rfl
  exact h a hab

/-- A chain of references is followed as far as to any name that is alive. -/
theorem LoopFree.refersTo_of_reflTransGen (h : s.LoopFree) (hn : s.isLive n)
    (path : Relation.ReflTransGen s.Forwards m n) : s.refersTo (.reference m) n = true := by
  obtain ⟨ns, hchain, hlast⟩ := List.exists_isChain_cons_of_relationReflTransGen path
  have hlive : ∀ x ∈ m :: ns, s.isLive x := by
    clear path
    induction ns generalizing m with
    | nil =>
      obtain rfl : m = n := by simpa using hlast
      simpa using hn
    | cons c ns ih =>
      rw [List.isChain_cons_cons] at hchain
      have hrest := ih hchain.2 (by simpa using hlast)
      exact List.forall_mem_cons.mpr ⟨isLive_of_forwards hchain.1, hrest⟩
  have hlength := (Above.mk (h.nodup_of_isChain hchain) hlive).length_le_size
  have hmem : n ∈ m :: ns := hlast ▸ List.getLast_mem _
  exact List.contains_iff_mem.mpr (mem_chainWithin hchain hlength hmem)

end chain

theorem type_setType (s : Store) (n : Name) (type : Ty Name) (a : Name) :
    (s.setType n type).store.type a = s.type a ∨
      a = n ∧ s.isLive n ∧ (s.setType n type).store.type a = type := by
  unfold setType write
  split
  · exact .inl rfl
  · unfold Store.type isLive
    rw [get?_modify]
    by_cases ha : a = n
    · rw [if_pos ha, ha]
      cases s.get? n with
      | none => exact .inl rfl
      | some e => exact .inr ⟨rfl, rfl, rfl⟩
    · exact .inl (by rw [if_neg ha])

theorem LoopFree.setType (h : s.LoopFree)
    (back : ∀ m, type = .reference m → s.refersTo (.reference m) n = false) :
    (s.setType n type).store.LoopFree := by
  have hedge : ∀ a b, (s.setType n type).store.Forwards a b →
      s.Forwards a b ∨ a = n ∧ s.isLive n ∧ type = .reference b := by
    intro a b hab
    unfold Forwards at hab ⊢
    rcases s.type_setType n type a with hsame | ⟨ha, hlive, hset⟩
    · exact .inl (hsame ▸ hab)
    · exact .inr ⟨ha, hlive, hset ▸ hab⟩
  -- If the new type is a reference, there is one new edge, and no path leads back along it.
  by_cases hnew : s.isLive n ∧ ∃ m, type = .reference m
  · obtain ⟨hlive, m, rfl⟩ := hnew
    refine not_transGen_of_edge h (x := n) (y := m) (fun a b hab => ?_) fun path => ?_
    · rcases hedge a b hab with hold | ⟨ha, -, hm⟩
      · exact .inl hold
      · exact .inr ⟨ha, (Ty.reference.inj hm).symm⟩
    · have hrefers := h.refersTo_of_reflTransGen hlive path
      rw [back m rfl] at hrefers
      cases hrefers
  · apply h.mono
    intro a b hab
    rcases hedge a b hab with hold | ⟨-, hlive, hm⟩
    · exact hold
    · exact absurd ⟨hlive, b, hm⟩ hnew

end Store
end PiCalculus
