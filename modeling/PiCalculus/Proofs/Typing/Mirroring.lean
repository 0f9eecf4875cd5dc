import Mathlib
import PiCalculus.Proofs.Reduction.Simplification
import PiCalculus.Proofs.Typing.Repeating

/-! Inference and unification over stores that mirror one another. They take the same steps, so that
they leave stores that mirror one another and fail, if at all, for the same reason. -/

namespace PiCalculus

/-- A failure without the place in the text. -/
def Error.unplaced : Error → Error
  | type e => type { e with span := none }
  | e => e

/-- What passes over two stores leave behind: stores that mirror one another, and the same failure. -/
structure Written.Mirrors (f : Name → Name) (w w' : Written) : Prop where
  store : Store.Mirrors f w.store w'.store
  failure : w'.failure.map Error.unplaced = w.failure.map Error.unplaced

theorem Written.Mirrors.failure_iff {f : Name → Name} {w w' : Written} (h : w.Mirrors f w') :
    w'.failure = none ↔ w.failure = none := by
  rw [← Option.map_eq_none_iff (f := Error.unplaced), h.failure, Option.map_eq_none_iff]

theorem Use.chan_mem_names {ν : Type} (use : Use ν) : use.chan ∈ use.names := by
  cases use with
  | sent chan values => exact List.mem_cons_self
  | received chan vars => exact List.mem_cons_self

namespace Store

open Process

variable {f : Name → Name} {s t : Store} {n m chan var : Name} {x x' : Ty Name}

theorem Reaches.of_fills (hf : s.Fills t) (h : s.Reaches n m) : t.Reaches n m := by
  refine Relation.ReflTransGen.mono (fun a b hab => ?_) _ _ h
  rw [hf.keeps a (by rw [hab]; simp)]
  exact hab

theorem Image.of_fills (hf : s.Fills t) (h : s.Image f n m) : t.Image f n m := by
  obtain ⟨hn, n', hreach, rfl⟩ := h
  exact ⟨(hf.retypes.isLive_eq n).trans hn, n', hreach.of_fills hf, rfl⟩

/-- Passes over lists take the same steps if each of their steps does. -/
theorem Mirrors.writeEach {α β : Type} {write : Store → α → Written} {write' : Store → β → Written}
    {I : Store → Prop} {R : Store → α → β → Prop}
    (each : ∀ u v a b, I u → Mirrors f u v → R u a b →
      Written.Mirrors f (write u a) (write' v b) ∧ I (write u a).store ∧
        ∀ a' b', R u a' b' → R (write u a).store a' b')
    {as : List α} {bs : List β} (h : Mirrors f s t) (hs : I s)
    (hrel : List.Forall₂ (R s) as bs) :
    Written.Mirrors f (s.writeEach write as) (t.writeEach write' bs) := by
  induction as generalizing s t bs with
  | nil =>
    cases hrel
    exact ⟨h, rfl⟩
  | cons a as ih =>
    obtain ⟨b, bs, hab, hrest, rfl⟩ := List.forall₂_cons_left_iff.mp hrel
    obtain ⟨hfirst, hinv, hmono⟩ := each s t a b hs h hab
    have hiff := hfirst.failure_iff
    by_cases hnone : (write s a).failure = none
    · rw [writeEach_cons_of_eq_none hnone, writeEach_cons_of_eq_none (hiff.mpr hnone)]
      exact ih hfirst.store hinv (hrest.imp hmono)
    · rw [writeEach_cons_of_ne_none hnone, writeEach_cons_of_ne_none (mt hiff.mp hnone)]
      exact hfirst

theorem Mirrors.setType (h : Mirrors f s t) (hn : s.isLive n) (hw : s.isConstant n = false)
    (hne : ∀ m, s.type n ≠ .reference m) (hx : x.Mirrored (s.Image f) x') :
    Written.Mirrors f (s.setType n x) (t.setType (f n) x') := by
  have hs : s.setType n x = ⟨(s.setType n x).store, none⟩ := by
    rw [Store.setType, write, hw]
    rfl
  have ht : t.setType (f n) x' = ⟨(t.setType (f n) x').store, none⟩ := by
    rw [Store.setType, write, h.isConstant n hn, hw]
    rfl
  rw [hs, ht]
  exact ⟨h.of_setType hn hne hs hx ht, rfl⟩

theorem ne_reference_of_isUntyped (h : x.isUntyped = true) (m : Name) : x ≠ .reference m := by
  rintro rfl
  cases h

theorem Mirrors.unifyVar (h : Mirrors f s t) (hs : s.Sound) (hchan : s.isLive chan)
    (hvar : s.isLive var) (hm : s.Image f n m) :
    Written.Mirrors f (s.unifyVar chan (.reference n) var)
      (t.unifyVar (f chan) (.reference m) (f var)) := by
  obtain ⟨a, ha⟩ := hs.grounded n hm.1
  obtain ⟨b, hb⟩ := hs.grounded var hvar
  have ha' := h.terminal?_eq ha hm
  have hb' := h.terminal?_eq hb (image_self hvar)
  have hliveA := (type_of_terminal? ha).1
  have hliveB := (type_of_terminal? hb).1
  have hfound := h.type var hvar
  rw [unifyVar_reference ha hb, unifyVar_reference ha' hb']
  simp only [h.terminal?_inj ha hb, hfound.isUntyped_eq, (h.type a hliveA).isUntyped_eq,
    (h.type b hliveB).isUntyped_eq, h.equal_eq hs.grounded (.reference hm) hfound]
  split_ifs with hab hv hu hu' hequal
  · exact ⟨h, rfl⟩
  · exact h.setType hvar (hs.writable _) (ne_reference_of_isUntyped hv) (.reference hm)
  · exact h.setType hliveA (hs.writable _) (ne_reference_of_isUntyped hu) hfound
  · exact h.setType hliveB (hs.writable _) (ne_reference_of_isUntyped hu') (.reference hm)
  · exact ⟨h, rfl⟩
  · refine ⟨h, ?_⟩
    rw [h.label chan hchan, h.unfold_eq hs.grounded (h.deref hs.grounded (.reference hm)),
      h.unfold_eq hs.grounded (h.deref hs.grounded hfound)]
    rfl

/-- What is brought together at a receive of one process and of another that mirrors it. -/
def Paired (f : Name → Name) (s : Store) (q q' : Ty Name × Name) : Prop :=
  s.isLive q.2 ∧ q'.2 = f q.2 ∧
    ∃ n m, q.1 = .reference n ∧ q'.1 = .reference m ∧ s.Image f n m

theorem Paired.of_fills {q q' : Ty Name × Name} (hf : s.Fills t) (h : Paired f s q q') :
    Paired f t q q' := by
  obtain ⟨hlive, hvar, n, m, hn, hm, himage⟩ := h
  exact ⟨(hf.retypes.isLive_eq q.2).trans hlive, hvar, n, m, hn, hm, himage.of_fills hf⟩

theorem paired_zip {xs xs' : List (Ty Name)}
    (h : List.Forall₂ (Ty.Mirrored (s.Image f)) xs xs') (hrefs : ∀ x ∈ xs, ∃ n, x = .reference n)
    {vars : List Name} (hvars : ∀ v ∈ vars, s.isLive v) :
    List.Forall₂ (Paired f s) (xs.zip vars) (xs'.zip (vars.map f)) := by
  induction h generalizing vars with
  | nil => exact .nil
  | @cons x x' xs xs' hx _ ih =>
    cases vars with
    | nil => exact .nil
    | cons v vars =>
      obtain ⟨⟨n, hn⟩, hrest⟩ := List.forall_mem_cons.mp hrefs
      obtain ⟨hv, hvars⟩ := List.forall_mem_cons.mp hvars
      rw [hn] at hx
      obtain ⟨m, rfl, hm⟩ := hx.exists_reference
      exact .cons ⟨hv, rfl, n, m, hn, rfl, hm⟩ (ih hrest hvars)

theorem Mirrors.unifyReceive (h : Mirrors f s t) (hs : s.Sound) (hchan : s.isLive chan)
    {vars : List Name} (hvars : ∀ v ∈ vars, s.isLive v) :
    Written.Mirrors f (s.unifyReceive chan vars) (t.unifyReceive (f chan) (vars.map f)) := by
  have hd := h.deref hs.grounded (h.type chan hchan)
  have hlabel := h.label chan hchan
  have hunfold := h.unfold_eq hs.grounded hd
  rw [Store.unifyReceive, Store.unifyReceive]
  cases hchanType : s.deref (s.type chan) with
  | chan elem =>
    rw [hchanType] at hd
    generalize t.deref (t.type (f chan)) = found at hd
    cases hd with
    | @chan _ elem' helem =>
      obtain ⟨ns, rfl, hns⟩ := hs.shallow.deref_eq_chan hchanType
      dsimp only
      rw [helem.arity_eq, List.length_map]
      split
      · have hrefs : ∀ x ∈ (Ty.carrying ns).elements, ∃ n, x = .reference n := by
          rw [Ty.elements_carrying]
          intro x hx
          obtain ⟨n, -, rfl⟩ := List.mem_map.mp hx
          exact ⟨n, rfl⟩
        refine h.writeEach (I := fun u => u.Sound ∧ u.isLive chan) ?_ ⟨hs, hchan⟩
          (paired_zip helem.elements hrefs hvars)
        rintro u v ⟨x, var⟩ ⟨x', var'⟩ ⟨hu, hlive⟩ huv ⟨hvar, hvar', n, m, hx, hx', hm⟩
        dsimp only at hvar hvar' hx hx' ⊢
        subst hvar' hx hx'
        obtain ⟨hsound, hfills, -⟩ := unifyVar_meets hu hm.1 hvar chan
        exact ⟨huv.unifyVar hu hlive hvar hm,
          ⟨hsound, (hfills.retypes.isLive_eq chan).trans hlive⟩, fun _ _ hp => hp.of_fills hfills⟩
      · refine ⟨h, ?_⟩
        rw [hlabel]
        rfl
  | reference n => exact absurd hchanType (s.deref_ne_reference _ n)
  | _ =>
    rw [hchanType] at hd hunfold
    generalize t.deref (t.type (f chan)) = found at hd hunfold
    cases hd
    all_goals
      refine ⟨h, ?_⟩
      dsimp only
      rw [hlabel, hunfold]
      rfl

theorem receives_map (f : Name → Name) (p : Process Name) :
    (p.map f).receives = p.receives.map fun r => (f r.1, r.2.map f) := by
  induction p with
  | par ps ih =>
    rw [map, receives, receives, List.flatMap_map, List.map_flatMap]
    exact List.flatMap_congr ih
  | _ => simp_all [map, receives]

theorem Mirrors.unify (h : Mirrors f s t) (hs : s.Sound) {p : Process Name}
    (live : ∀ n ∈ p.occurrences, s.isLive n) :
    Written.Mirrors f (s.unify p) (t.unify (p.map f)) := by
  have hrel : List.Forall₂ (fun r r' => r ∈ p.receives ∧ r' = (f r.1, r.2.map f)) p.receives
      (p.map f).receives := by
    rw [receives_map, List.forall₂_map_right_iff, List.forall₂_same]
    exact fun r hr => ⟨hr, rfl⟩
  refine h.writeEach (I := fun u => u.Sound ∧ ∀ n ∈ p.occurrences, u.isLive n)
    (R := fun _ r r' => r ∈ p.receives ∧ r' = (f r.1, r.2.map f)) ?_ ⟨hs, live⟩ hrel
  rintro u v ⟨chan, vars⟩ _ ⟨hu, hlive⟩ huv ⟨hr, rfl⟩
  obtain ⟨hchan, hvars⟩ := Process.mem_occurrences_of_receives hr
  have hrepeats := repeats_unifyReceive chan hu fun x hx => hlive x (hvars x hx)
  refine ⟨huv.unifyReceive hu (hlive _ hchan) fun x hx => hlive x (hvars x hx),
    ⟨hrepeats.sound, fun n hn => ?_⟩, fun _ _ hp => hp⟩
  exact (hrepeats.fills.retypes.isLive_eq n).trans (hlive n hn)

/-- A receive fits exactly if the one that mirrors it does. -/
theorem Mirrors.fits_iff (h : Mirrors f s t) (g : s.Grounded) (hchan : s.isLive chan)
    {vars : List Name} (hvars : ∀ v ∈ vars, s.isLive v) :
    t.Fits (f chan) (vars.map f) ↔ s.Fits chan vars := by
  have hd := h.deref g (h.type chan hchan)
  unfold Fits
  generalize s.deref (s.type chan) = found at hd
  generalize t.deref (t.type (f chan)) = found' at hd
  cases hd with
  | @chan elem elem' helem =>
    -- The variables and what the channel carries are mirrored one by one.
    have hagree : ∀ {xs xs' : List (Ty Name)} {vars : List Name},
        List.Forall₂ (Ty.Mirrored (s.Image f)) xs xs' → (∀ v ∈ vars, s.isLive v) →
        ((∀ q ∈ xs'.zip (vars.map f), t.Agree q.1 (t.type q.2)) ↔
          ∀ q ∈ xs.zip vars, s.Agree q.1 (s.type q.2)) := by
      intro xs xs' vars hxs hvars
      induction hxs generalizing vars with
      | nil => simp
      | cons hx _ ih =>
        cases vars with
        | nil => simp
        | cons v vars =>
          obtain ⟨hv, hvars⟩ := List.forall_mem_cons.mp hvars
          rw [List.map_cons, List.zip_cons_cons, List.zip_cons_cons, List.forall_mem_cons,
            List.forall_mem_cons, ih hvars, h.agree_iff g hx (h.type v hv)]
    simp only [Ty.chan.injEq, exists_eq_left', helem.arity_eq, List.length_map,
      hagree helem.elements hvars]
  | _ => simp

theorem Mirrors.consistent_iff (h : Mirrors f s t) (g : s.Grounded) {p : Process Name}
    (live : ∀ n ∈ p.occurrences, s.isLive n) : t.Consistent (p.map f) ↔ s.Consistent p := by
  rw [Consistent, Consistent, receives_map, List.forall_mem_map]
  refine forall₂_congr fun r hr => ?_
  obtain ⟨hchan, hvars⟩ := Process.mem_occurrences_of_receives hr
  exact h.fits_iff g (live _ hchan) fun x hx => live x (hvars x hx)

theorem Mirrors.channelTypes_eq (h : Mirrors f s t) (g : s.Grounded) {p : Process Name}
    (live : ∀ n ∈ p.occurrences, s.isLive n) :
    t.channelTypes (p.map f) = s.channelTypes p := by
  have hlabel : ∀ n, s.isLive n → t.label (f n) = s.label n := h.label
  have htype : ∀ n, s.isLive n → t.renderType (t.type (f n)) = s.renderType (s.type n) :=
    fun n hn => h.renderType_eq g (h.type n hn)
  induction p with
  | nil => rw [map, channelTypes, channelTypes]
  | send chan values =>
    have hchan := live chan (by simp [occurrences])
    rw [map, channelTypes, channelTypes, hlabel chan hchan, htype chan hchan]
  | receive chan vars body ih =>
    have hchan := live chan (by simp [occurrences])
    have hbody := ih fun n hn => live n (by simp [occurrences, hn])
    rw [map, channelTypes, channelTypes, hlabel chan hchan, htype chan hchan, hbody]
  | par ps ih =>
    rw [map, channelTypes, channelTypes, List.map_map]
    congr 1
    refine List.map_congr_left fun p hp => ih p hp fun n hn => live n ?_
    rw [occurrences]
    exact List.mem_flatMap.mpr ⟨p, hp, hn⟩
  | replicate body ih =>
    rw [map, channelTypes, channelTypes, ih fun n hn => live n (by simpa [occurrences] using hn)]
  | restrict name body ih =>
    have hname := live name (by simp [occurrences])
    have hbody := ih fun n hn => live n (by simp [occurrences, hn])
    rw [map, channelTypes, channelTypes, hlabel name hname, htype name hname, hbody]

section infer

/-- The name that stands for a name in the types of channels that carry it. -/
def target (s : Store) (n : Name) : Name :=
  match s.type n with
  | .reference m => m
  | _ => n

theorem target_of_reference (h : s.type n = .reference m) : s.target n = m := by
  rw [target, h]

theorem target_of_ne_reference (h : ∀ m, s.type n ≠ .reference m) : s.target n = n := by
  rw [target]
  split
  · next m hm => exact absurd hm (h m)
  · rfl

theorem element_eq (s : Store) (ns : List Name) : s.element ns = .carrying (ns.map s.target) := by
  have hpointer : s.pointer = fun n => .reference (s.target n) := by
    funext n
    unfold pointer target
    cases s.type n <;> rfl
  rcases ns with _ | ⟨n, _ | ⟨m, ns⟩⟩ <;> simp [element, Ty.carrying, hpointer]

theorem mirrored_carrying {r : Name → Name → Prop} {ns ms : List Name} (h : List.Forall₂ r ns ms) :
    (Ty.carrying ns).Mirrored r (.carrying ms) := by
  cases h with
  | nil => exact .composite .nil
  | cons hn hrest =>
    cases hrest with
    | nil => exact .reference hn
    | cons hm hrest => exact .composite (.cons hn (.cons hm hrest))

theorem Mirrors.image_target (h : Mirrors f s t) (hn : s.isLive n) :
    s.Image f (s.target n) (t.target (f n)) := by
  have htype := h.type n hn
  by_cases href : ∃ m, s.type n = .reference m
  · obtain ⟨m, hm⟩ := href
    rw [hm] at htype
    obtain ⟨m', hm', himage⟩ := htype.exists_reference
    rwa [target_of_reference hm, target_of_reference hm']
  · push Not at href
    rw [target_of_ne_reference href, target_of_ne_reference (htype.ne_reference href)]
    exact image_self hn

theorem Mirrors.element (h : Mirrors f s t) {ns : List Name} (live : ∀ n ∈ ns, s.isLive n) :
    (s.element ns).Mirrored (s.Image f) (t.element (ns.map f)) := by
  rw [element_eq, element_eq]
  apply mirrored_carrying
  rw [List.map_map, List.forall₂_map_left_iff, List.forall₂_map_right_iff, List.forall₂_same]
  exact fun n hn => h.image_target (live n hn)

def inferred (s : Store) : Use Name → Ty Name
  | .sent _ values => .chan (s.element values)
  | .received chan vars =>
    if (s.type chan).isUntyped then .chan (s.element vars) else s.type chan

variable {use : Use Name}

theorem inferUse_eq (hw : s.isConstant use.chan = false) (hlive : s.isLive use.chan) :
    ∃ t, s.inferUse use = ⟨t, none⟩ ∧ s.Retypes t ∧
      ∀ n, t.type n = if n = use.chan then s.inferred use else s.type n := by
  have writes : ∀ x, ∃ t, s.setType use.chan x = ⟨t, none⟩ ∧ s.Retypes t ∧
      ∀ n, t.type n = if n = use.chan then x else s.type n := by
    intro x
    have ht : s.setType use.chan x = ⟨(s.setType use.chan x).store, none⟩ := by
      rw [Store.setType, write, hw]
      rfl
    refine ⟨_, ht, retypes_of_setType ht, fun n => ?_⟩
    split
    · next hn => rw [hn, type_of_setType ht hlive]
    · next hn => exact type_of_setType_ne ht hn
  cases use with
  | sent chan values => exact writes _
  | received chan vars =>
    rw [inferUse, inferred]
    split
    · exact writes _
    · refine ⟨s, rfl, .refl s, fun n => ?_⟩
      split
      · next hn => rw [hn]; rfl
      · rfl

theorem inferred_ne_reference (h : ∀ m, s.type use.chan ≠ .reference m) (m : Name) :
    s.inferred use ≠ .reference m := by
  cases use with
  | sent chan values => simp [inferred]
  | received chan vars =>
    rw [inferred]
    split
    · simp
    · exact h m

theorem inferred_ne_untyped : s.inferred use ≠ .untyped := by
  cases use with
  | sent chan values => simp [inferred]
  | received chan vars =>
    rw [inferred]
    split
    · simp
    · next hu => exact mt isUntyped_iff.mpr hu

theorem Mirrors.inferUse (h : Mirrors f s t) (hw : s.isConstant use.chan = false)
    (live : ∀ n ∈ use.names, s.isLive n) (hne : ∀ m, s.type use.chan ≠ .reference m) :
    Written.Mirrors f (s.inferUse use) (t.inferUse (use.map f)) := by
  cases use with
  | sent chan values =>
    obtain ⟨hchan, hvalues⟩ := List.forall_mem_cons.mp live
    exact h.setType hchan hw hne (.chan (h.element hvalues))
  | received chan vars =>
    obtain ⟨hchan, hvars⟩ := List.forall_mem_cons.mp live
    rw [Store.inferUse, Use.map, Store.inferUse, (h.type chan hchan).isUntyped_eq]
    split
    · exact h.setType hchan hw hne (.chan (h.element hvars))
    · exact ⟨h, rfl⟩

/-- The stores that inference goes through: no channel that is used only refers to another name. -/
structure Inferrable (s : Store) (p : Process Name) : Prop where
  writable : ∀ n, s.isConstant n = false
  isLive : ∀ n ∈ p.occurrences, s.isLive n
  direct : ∀ use ∈ p.uses, ∀ m, s.type use.chan ≠ .reference m

variable {p : Process Name}

theorem Inferrable.inferUse (h : s.Inferrable p) (huse : use ∈ p.uses) :
    ∃ t, s.inferUse use = ⟨t, none⟩ ∧ s.Retypes t ∧ t.Inferrable p ∧
      ∀ n, t.type n = if n = use.chan then s.inferred use else s.type n := by
  have hchan := h.isLive _ (names_subset_occurrences huse use.chan_mem_names)
  obtain ⟨t, ht, hretypes, htype⟩ := inferUse_eq (h.writable use.chan) hchan
  refine ⟨t, ht, hretypes, ⟨fun n => ?_, fun n hn => ?_, fun use' huse' m => ?_⟩, htype⟩
  · rw [hretypes.isConstant_eq, h.writable]
  · exact (hretypes.isLive_eq n).trans (h.isLive n hn)
  · rw [htype]
    split
    · exact inferred_ne_reference (h.direct use huse) m
    · exact h.direct use' huse' m

theorem Mirrors.infer (h : Mirrors f s t) (hs : s.Inferrable p) :
    Written.Mirrors f (s.infer p) (t.infer (p.map f)) := by
  have hrel : List.Forall₂ (fun use use' => use ∈ p.uses ∧ use' = use.map f) p.uses
      (p.map f).uses := by
    rw [uses_map, List.forall₂_map_right_iff, List.forall₂_same]
    exact fun use huse => ⟨huse, rfl⟩
  refine h.writeEach (I := fun u => u.Inferrable p)
    (R := fun _ use use' => use ∈ p.uses ∧ use' = use.map f) ?_ hs hrel
  rintro u v use _ hu huv ⟨huse, rfl⟩
  obtain ⟨w, hw, -, hinferrable, -⟩ := hu.inferUse huse
  refine ⟨huv.inferUse (hu.writable _) (fun n hn => hu.isLive n ?_) (hu.direct use huse), ?_,
    fun _ _ hp => hp⟩
  · exact names_subset_occurrences huse hn
  · rwa [hw]

end infer

end Store
end PiCalculus
