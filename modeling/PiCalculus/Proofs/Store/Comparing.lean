import Mathlib
import PiCalculus.Proofs.Ty.Reading
import PiCalculus.Proofs.Typing.Variables
import PiCalculus.Store.Extent

/-! Comparing types in stores where no name is reached from its own type. There the comparison that is
not cut off at any depth comes to an end, since each of its steps goes down in a finite tree, and it
finds out whether types stand for the same tree. Their texts tell as much, so types that do not match
are never reported by equal texts. -/

namespace PiCalculus

namespace Ty

/-- A tree down to some depth. -/
def cut : Nat → Shape → Shape
  | 0, _ => .untyped
  | k + 1, .chan t => .chan (t.cut k)
  | k + 1, .composite ts => .composite (ts.map (cut k))
  | _ + 1, t => t

theorem size_lt_of_mem {ρ : Type} {t : Ty ρ} {ts : List (Ty ρ)} (h : t ∈ ts) :
    t.size < (composite ts).size := by
  rw [size]
  induction ts with
  | nil => cases h
  | cons u ts ih =>
    rw [List.map_cons, List.foldr_cons]
    rcases List.mem_cons.mp h with rfl | h
    · have hrest := foldr_size_pos ts
      omega
    · have hrest := ih h
      omega

theorem cut_eq_self {t : Shape} {k : Nat} (h : t.size ≤ k) : t.cut k = t := by
  induction k generalizing t with
  | zero => exact absurd t.size_pos (Nat.not_lt.mpr h)
  | succ k ih =>
    cases t with
    | chan t =>
      rw [size] at h
      rw [cut, ih (Nat.le_of_succ_le_succ h)]
    | composite ts =>
      rw [cut, List.map_congr_left, List.map_id]
      exact fun t ht => ih (Nat.le_of_lt_succ (Nat.lt_of_lt_of_le (size_lt_of_mem ht) h))
    | reference n => exact n.elim
    | _ => rfl

end Ty

namespace Store

variable {s : Store} {t u : Ty Name}

theorem unfold_untyped : s.unfold .untyped = .untyped := unfoldBelow_untyped

theorem unfold_base (label : String) : s.unfold (.base label) = .base label := unfoldBelow_base label

theorem unfold_chan (t : Ty Name) : s.unfold (.chan t) = .chan (s.unfold t) := unfoldBelow_chan t

theorem unfold_composite (ts : List (Ty Name)) :
    s.unfold (.composite ts) = .composite (ts.map s.unfold) := unfoldBelow_composite ts

/-- Trees have no labels but those in the type and in the types of names. -/
theorem worded_unfold (hs : ∀ n, ∀ label ∈ (s.type n).labels, IsWord label)
    (ht : ∀ label ∈ t.labels, IsWord label) : (s.unfold t).Worded := by
  have within : ∀ k above t, (∀ label ∈ t.labels, IsWord label) →
      (s.unfoldWithin k above t).Worded := by
    intro k
    induction k with
    | zero =>
      intro above t ht label hl
      rcases Ty.mem_labels_bind hl with hl | ⟨n, -, hl⟩
      · exact ht label hl
      · simp [Ty.labels] at hl
    | succ k ih =>
      intro above t ht label hl
      rcases Ty.mem_labels_bind hl with hl | ⟨n, -, hl⟩
      · exact ht label hl
      · cases hnext : s.next above n with
        | none => simp [hnext, Ty.labels] at hl
        | some u =>
          obtain ⟨-, -, rfl⟩ := isLive_of_next hnext
          rw [hnext] at hl
          exact ih _ _ (hs n) label hl
  exact within s.size [] t ht

namespace Acyclic

theorem outline_eq_cut (h : s.Acyclic) (k : Nat) (t : Ty Name) :
    s.outline k t = (s.unfold t).cut k := by
  induction k generalizing t with
  | zero => rfl
  | succ k ih =>
    rw [outline, ← h.unfold_deref t]
    have ht := s.deref_ne_reference t
    generalize s.deref t = t at ht
    cases t with
    | untyped => rw [unfold_untyped]; rfl
    | base label => rw [unfold_base]; rfl
    | chan t =>
      rw [unfold_chan, Ty.cut, ← ih]
    | composite ts =>
      rw [unfold_composite, Ty.cut, List.map_map]
      exact congrArg Ty.composite (List.map_congr_left fun t _ => ih t)
    | reference n => exact absurd rfl (ht n)

theorem agree_iff_unfold_eq (h : s.Acyclic) : s.Agree t u ↔ s.unfold t = s.unfold u := by
  refine ⟨fun hagree => ?_, fun heq k => ?_⟩
  · have hcut := hagree ((s.unfold t).size + (s.unfold u).size)
    rwa [h.outline_eq_cut, h.outline_eq_cut, Ty.cut_eq_self (Nat.le_add_right _ _),
      Ty.cut_eq_self (Nat.le_add_left _ _)] at hcut
  · rw [h.outline_eq_cut, h.outline_eq_cut, heq]

theorem equal_iff_unfold_eq (h : s.Acyclic) : s.equal t u = true ↔ s.unfold t = s.unfold u :=
  equal_iff_agree.trans h.agree_iff_unfold_eq

end Acyclic

/-- The comparison as it goes on without regard to its depth. It has no result if it is not at an end
after so many steps down. -/
def compare? (s : Store) : Nat → List (Name × Name) → Ty Name → Ty Name → Option Bool
  | k + 1, assumed, .reference a, .reference b =>
    if a == b || assumed.contains (a, b) then some true
    else s.compare? k ((a, b) :: assumed) (s.deref (.reference a)) (s.deref (.reference b))
  | k + 1, assumed, t, u =>
    match s.deref t, s.deref u with
    | .composite ts, .composite us =>
      if ts.length = us.length then (ts.zip us).allM fun (t, u) => s.compare? k assumed t u
      else some false
    | .chan t, .chan u => s.compare? k assumed t u
    | .base a, .base b => some (a == b)
    | .untyped, .untyped => some true
    | _, _ => some false
  | 0, _, _, _ => none

theorem allM_eq_some {α : Type} {f : α → Option Bool} {g : α → Bool} {as : List α}
    (h : ∀ a ∈ as, f a = some (g a)) : as.allM f = some (as.all g) := by
  induction as with
  | nil => rfl
  | cons a as ih =>
    obtain ⟨ha, has⟩ := List.forall_mem_cons.mp h
    rw [List.allM, ha, List.all_cons, ih has]
    cases g a <;> rfl

theorem Acyclic.size_unfold_lt (h : s.Acyclic) {x : Ty Name} (hx : x ∈ (s.deref t).children) :
    (s.unfold x).size < (s.unfold t).size := by
  rw [← h.unfold_deref t]
  generalize s.deref t = t at hx
  cases t with
  | chan t =>
    obtain rfl := List.mem_singleton.mp hx
    rw [unfold_chan, Ty.size]
    exact Nat.lt_succ_self _
  | composite ts =>
    rw [unfold_composite]
    exact Ty.size_lt_of_mem (List.mem_map_of_mem hx)
  | _ => cases hx

/-- Where the types at the end of the references are compared, their children are compared. -/
theorem compare?_eq_of_children {k : Nat} {assumed : List (Name × Name)}
    (hroots : ∀ a b, t = .reference a → u ≠ .reference b)
    (h : ∀ x ∈ (s.deref t).children, ∀ y,
      s.compare? k assumed x y = some (s.equalWithin k assumed x y)) :
    s.compare? (k + 1) assumed t u = some (s.equalWithin (k + 1) assumed t u) := by
  rw [compare?, equalWithin]
  · generalize s.deref t = t at h
    generalize s.deref u = u
    cases t with
    | composite ts =>
      cases u with
      | composite us =>
        have hchildren : ∀ q ∈ ts.zip us,
            s.compare? k assumed q.1 q.2 = some (s.equalWithin k assumed q.1 q.2) :=
          fun q hq => h q.1 (List.of_mem_zip hq).1 q.2
        dsimp only
        split
        · next hlength =>
          rw [allM_eq_some hchildren]
          simp [hlength]
        · next hlength => simp [hlength]
      | _ => rfl
    | chan t =>
      cases u with
      | chan u => exact h t (List.mem_singleton_self t) u
      | _ => rfl
    | _ => cases u <;> rfl
  · exact fun a b hta hub => hroots a b hta hub
  · exact fun a b hta hub => hroots a b hta hub

/-- So many steps down lead to the end of every comparison with a type: two for each constructor of its
tree, since references on both sides are followed before the types behind them are compared. -/
theorem Acyclic.compare?_eq (h : s.Acyclic) {k : Nat} (hk : 2 * (s.unfold t).size < k)
    (assumed : List (Name × Name)) (u : Ty Name) :
    s.compare? k assumed t u = some (s.equalWithin k assumed t u) := by
  -- Behind references the tree is the same, so these take the odd steps and children the even ones.
  induction hsize : (s.unfold t).size using Nat.strong_induction_on generalizing t u k assumed with
  | _ size ih =>
  have roots : ∀ {k assumed} {t u : Ty Name}, (∀ a b, t = .reference a → u ≠ .reference b) →
      (s.unfold t).size = size → 2 * size ≤ k + 1 →
      s.compare? (k + 1) assumed t u = some (s.equalWithin (k + 1) assumed t u) := by
    intro k assumed t u hroots hsize hk
    refine compare?_eq_of_children hroots fun x hx y => ?_
    have hlt := h.size_unfold_lt hx
    exact ih _ (hsize ▸ hlt) (by omega) assumed y rfl
  obtain ⟨k, rfl⟩ := Nat.exists_eq_succ_of_ne_zero (Nat.ne_zero_of_lt hk)
  by_cases hrefs : ∀ a b, t = .reference a → u ≠ .reference b
  · exact roots hrefs hsize (by omega)
  · push Not at hrefs
    obtain ⟨a, b, rfl, rfl⟩ := hrefs
    have hmet : (a == b || assumed.contains (a, b)) = true ↔ a = b ∨ (a, b) ∈ assumed := by
      rw [Bool.or_eq_true, beq_iff_eq, List.contains_iff_mem]
    rw [compare?, equalWithin]
    simp only [hmet]
    split
    · rfl
    · have hpos := (s.unfold (.reference a)).size_pos
      obtain ⟨k, rfl⟩ := Nat.exists_eq_succ_of_ne_zero (show k ≠ 0 by omega)
      have hends : ∀ c d, s.deref (.reference a) = .reference c →
          s.deref (.reference b) ≠ .reference d :=
        fun c _ hc => absurd hc (s.deref_ne_reference _ c)
      exact roots hends (by rw [h.unfold_deref, hsize]) (by omega)

theorem setType_ne_typeError (n : Name) (type : Ty Name) (v : Store) (e : TypeError) :
    s.setType n type ≠ ⟨v, some (.type e)⟩ := by
  rw [setType, write]
  split <;> simp

/-- The conflict of a variable with what its channel carries. -/
theorem of_unifyVar_typeError {chan var : Name} {elem : Ty Name} {v : Store} {e : TypeError}
    (h : s.unifyVar chan elem var = ⟨v, some (.type e)⟩) :
    v.equal elem (v.type var) = false ∧ e = ⟨v.label chan, v.span chan,
      .mismatch (v.unfold (v.deref elem)) (v.unfold (v.deref (v.type var)))⟩ := by
  have hways := s.unifies_unifyVar chan elem var
  generalize s.unifyVar chan elem var = w at h hways
  cases hways with
  | met => cases h
  | given => exact absurd h (setType_ne_typeError _ _ _ _)
  | matched => cases h
  | differs _ hdiffer =>
    cases h
    exact ⟨hdiffer, rfl⟩

/-- A conflict is one of a receive, and types that do not match are not equal in the store that is left
behind. -/
theorem of_unify_typeError {v : Store} {p : Process Name} {e : TypeError}
    (h : s.unify p = ⟨v, some (.type e)⟩) :
    ∃ chan vars, (chan, vars) ∈ p.receives ∧ e.chan = v.label chan ∧ e.span = v.span chan ∧
      ∀ expected found, e.conflict = .mismatch expected found →
        ∃ t u, v.equal t u = false ∧ expected = v.unfold (v.deref t) ∧
          found = v.unfold (v.deref u) := by
  obtain ⟨⟨chan, vars⟩, hreceive, w, hconflict⟩ := exists_of_writeEach_failure h
  refine ⟨chan, vars, hreceive, ?_⟩
  dsimp only [unifyReceive] at hconflict
  split at hconflict
  · split at hconflict
    · obtain ⟨⟨elem, var⟩, -, w, hvar⟩ := exists_of_writeEach_failure hconflict
      obtain ⟨hequal, rfl⟩ := of_unifyVar_typeError hvar
      refine ⟨rfl, rfl, fun expected found he => ?_⟩
      cases he
      exact ⟨elem, v.type var, hequal, rfl, rfl⟩
    · cases hconflict
      exact ⟨rfl, rfl, nofun⟩
  · cases hconflict
    exact ⟨rfl, rfl, nofun⟩

theorem of_unify_mismatch {v : Store} {p : Process Name} {label : String} {span : Option Span}
    {expected found : Shape}
    (h : s.unify p = ⟨v, some (.type ⟨label, span, .mismatch expected found⟩)⟩) :
    ∃ t u, v.equal t u = false ∧ expected = v.unfold (v.deref t) ∧ found = v.unfold (v.deref u) := by
  obtain ⟨-, -, -, -, -, hmismatch⟩ := of_unify_typeError h
  exact hmismatch expected found rfl

/-- Inference has no conflict to tell of. -/
theorem exists_unify_of_inferAndUnify {u : Store} {p : Process Name} {e : TypeError}
    (h : s.inferAndUnify p = ⟨u, some (.type e)⟩) :
    ∃ t, s.infer p = ⟨t, none⟩ ∧ t.unify p = ⟨u, some (.type e)⟩ := by
  unfold inferAndUnify at h
  split at h
  · next t ht => exact ⟨t, ht, h⟩
  · obtain ⟨use, -, t, huse⟩ := exists_of_writeEach_failure h
    exfalso
    cases use with
    | sent chan values => exact setType_ne_typeError _ _ _ _ huse
    | received chan vars =>
      rw [inferUse] at huse
      split at huse
      · exact setType_ne_typeError _ _ _ _ huse
      · cases huse

/-- Where no name is reached from its own type, there is one way to replace all references, and the
comparison of types comes to an end with what the store finds. It finds types equal exactly if all their
references replaced they are the same tree, and that is if they are displayed by the same text. -/
theorem Acyclic.equal_decides (h : s.Acyclic) :
    (∀ tree : Ty Name → Shape, s.Unfolds tree ↔ tree = s.unfold) ∧
    (∀ t u, ∃ depth, ∀ k ≥ depth, s.compare? k [] t u = some (s.equal t u)) ∧
    (∀ t u, s.equal t u = true ↔ s.unfold t = s.unfold u) ∧
    (∀ t u, (s.unfold t).Worded → (s.unfold u).Worded →
      (s.equal t u = true ↔ s.renderType t = s.renderType u)) ∧
    Equivalence (fun t u => s.equal t u = true) ∧
    ∀ (r : Store) (p : Process Name) (label : String) (span : Option Span) (expected found : Shape),
      r.unify p = ⟨s, some (.type ⟨label, span, .mismatch expected found⟩)⟩ →
      expected.Worded → found.Worded → expected.render ≠ found.render := by
  refine ⟨fun tree => h.unfolds_iff, fun t u => ?_, fun t u => h.equal_iff_unfold_eq,
    fun t u ht hu => ?_, ⟨fun t => ?_, fun {t u} htu => ?_, fun {t u v} htu huv => ?_⟩,
    fun r p label span expected found hfails hexpected hfound hrender => ?_⟩
  · refine ⟨2 * (s.unfold t).size + 1 + s.comparisonDepth t u, fun k hk => ?_⟩
    rw [h.compare?_eq (by omega), equalWithin_eq_equal (by omega)]
  · rw [h.equal_iff_unfold_eq]
    exact ⟨congrArg Ty.render, ht.render_inj hu⟩
  · exact h.equal_iff_unfold_eq.mpr rfl
  · exact h.equal_iff_unfold_eq.mpr (h.equal_iff_unfold_eq.mp htu).symm
  · exact h.equal_iff_unfold_eq.mpr
      ((h.equal_iff_unfold_eq.mp htu).trans (h.equal_iff_unfold_eq.mp huv))
  · obtain ⟨t, u, hdiffer, rfl, rfl⟩ := of_unify_mismatch hfails
    have hsame := hexpected.render_inj hfound hrender
    rw [h.unfold_deref, h.unfold_deref, ← h.equal_iff_unfold_eq, hdiffer] at hsame
    cases hsame

/-- What the channel carries and the variable do not match, and the second value that the variable is
sent with is a name that is dropped. -/
theorem Acyclic.equal_decides_dropped :
    let s : Store := ⟨#[some { Entry.ordinary "c" with type := .chan (.reference ⟨2⟩) },
      some { Entry.ordinary "x" with type := .chan (.composite [.reference ⟨2⟩, .reference ⟨3⟩]) },
      some (Entry.hinted "a" "T"), none]⟩
    let t := .reference ⟨1⟩
    let u := .chan (.composite [.base "T", .untyped])
    (s.equal t u = true ∧ s.renderType t = s.renderType u) ∧
      ∃ expected found, s.unify (.receive ⟨0⟩ [⟨1⟩] .nil) =
          ⟨s, some (.type ⟨"c", none, .mismatch expected found⟩)⟩ ∧
        expected.render ≠ found.render := by
  intro s t u
  have hacyclic : s.Acyclic := not_transGen_pointsTo (by decide +kernel)
  have hT : IsWord "T" := IsIdentifier.isWord ⟨'T', [], by decide, by decide, by simp, by decide⟩
  have hs : ∀ n, ∀ label ∈ (s.type n).labels, IsWord label := by
    rintro ⟨_ | _ | _ | _ | i⟩ label hl
    · simp [s, type, get?, Ty.labels] at hl
    · simp [s, type, get?, Ty.labels] at hl
    · obtain rfl : label = "T" := by simpa [s, type, get?, Ty.labels, Entry.hinted] using hl
      exact hT
    · simp [s, type, get?, Ty.labels] at hl
    · simp [s, type, get?, Ty.labels] at hl
  have hfails : s.unify (.receive ⟨0⟩ [⟨1⟩] .nil) = ⟨s, some (.type ⟨"c", none,
    .mismatch (.base "T") (.chan (.composite [.base "T", .untyped]))⟩)⟩ := by cbv
  obtain ⟨-, -, hunfold, htext, -, hmismatch⟩ := hacyclic.equal_decides
  have hequal : s.equal t u = true := (hunfold t u).mpr (by cbv)
  have ht : (s.unfold t).Worded := worded_unfold hs (by simp [t, Ty.labels])
  have hu : (s.unfold u).Worded := worded_unfold hs (by simpa [u, Ty.labels] using hT)
  refine ⟨⟨hequal, (htext t u ht hu).mp hequal⟩, _, _, hfails, hmismatch s _ _ _ _ _ hfails ?_ ?_⟩
  · simpa [Ty.Worded, Ty.labels] using hT
  · simpa [Ty.Worded, Ty.labels] using hT

end Store
end PiCalculus
