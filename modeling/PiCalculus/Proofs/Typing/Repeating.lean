import Mathlib
import PiCalculus.Proofs.Typing.Meeting

/-! Unification made again. Where it came to its end, all names that it brought together have met,
so that they are only compared later on; and where it failed, it fails again, at that place at the
latest. -/

namespace PiCalculus.Store

variable {s u : Store} {n chan var : Name} {vars : List Name}

/-- How a pass is when it is made again. If it came to its end it writes nothing to what has become
of the store, and succeeds on it exactly if this is good; if it failed it writes nothing more and
fails. -/
structure Repeats (run : Store → Written) (good : Store → Prop) (s : Store) : Prop where
  sound : (run s).store.Sound
  fills : s.Fills (run s).store
  later : (run s).failure = none → ∀ u, u.Sound → (run s).store.Fills u →
    (run u).store = u ∧ ((run u).failure = none ↔ good u)
  stuck : (run s).failure ≠ none →
    (run (run s).store).store = (run s).store ∧ (run (run s).store).failure ≠ none

/-- It is enough to know of the stores that come about how the pass is made and what is good. -/
theorem Repeats.congr {run run' : Store → Written} {good good' : Store → Prop}
    (h : Repeats run good s) (hrun : ∀ u, s.Fills u → run' u = run u)
    (hgood : ∀ u, s.Fills u → (good' u ↔ good u)) : Repeats run' good' s := by
  have hstart := hrun s (.refl s)
  refine ⟨hstart ▸ h.sound, hstart ▸ h.fills, fun hnone u hu hsu => ?_, fun hfails => ?_⟩
  · rw [hstart] at hnone hsu
    rw [hrun u (h.fills.trans hsu), hgood u (h.fills.trans hsu)]
    exact h.later hnone u hu hsu
  · rw [hstart] at hfails ⊢
    rw [hrun _ h.fills]
    exact h.stuck hfails

theorem Repeats.of_failure {run : Store → Written} {good : Store → Prop} (h : s.Sound)
    (hrun : ∃ e, run s = ⟨s, some e⟩) : Repeats run good s := by
  obtain ⟨e, hrun⟩ := hrun
  have hfails : (run s).failure ≠ none := by simp [hrun]
  have hstore : (run s).store = s := congrArg Written.store hrun
  refine ⟨hstore.symm ▸ h, ?_, fun hnone => absurd hnone hfails, fun _ => ?_⟩
  · rw [hstore]
    exact .refl s
  · rw [hstore]
    exact ⟨hstore, hfails⟩

section Each

variable {α : Type} {write : Store → α → Written} {a : α} {as : List α}

theorem writeEach_cons_of_eq_none (h : (write s a).failure = none) :
    writeEach write s (a :: as) = writeEach write (write s a).store as := by
  rw [writeEach]
  split
  · next t ht => rw [ht]
  · next hstopped =>
    exact absurd (congrArg (Written.mk (write s a).store) h) (hstopped _)

theorem writeEach_cons_of_ne_none (h : (write s a).failure ≠ none) :
    writeEach write s (a :: as) = write s a := by
  rw [writeEach]
  split
  · next t ht => exact absurd (congrArg Written.failure ht) h
  · rfl

/-- A pass is made again as each of its steps is. -/
theorem Repeats.writeEach {good : α → Store → Prop} (hs : s.Sound)
    (each : ∀ a ∈ as, ∀ u, u.Sound → s.Fills u → Repeats (write · a) (good a) u) :
    Repeats (fun u => writeEach write u as) (fun u => ∀ a ∈ as, good a u) s := by
  induction as generalizing s with
  | nil =>
    refine ⟨hs, .refl s, fun _ u _ _ => ⟨rfl, ?_⟩, fun h => absurd rfl h⟩
    simp [Store.writeEach]
  | cons a as ih =>
    have first := each a List.mem_cons_self s hs (.refl s)
    by_cases hfirst : (write s a).failure = none
    · have rest := ih first.sound fun b hb u hu hsu =>
        each b (List.mem_cons_of_mem _ hb) u hu (first.fills.trans hsu)
      have heq : Store.writeEach write s (a :: as) = _ := writeEach_cons_of_eq_none hfirst
      -- Whatever becomes of the store, the first step writes nothing to it.
      have again : ∀ u, u.Sound → (Store.writeEach write (write s a).store as).store.Fills u →
          (write u a).store = u ∧ ((write u a).failure = none ↔ good a u) := fun u hu hfills =>
        first.later hfirst u hu (rest.fills.trans hfills)
      refine ⟨heq ▸ rest.sound, heq ▸ first.fills.trans rest.fills, fun hrest u hu hfills => ?_,
        fun hrest => ?_⟩
      · rw [heq] at hrest hfills
        obtain ⟨hstore, hgood⟩ := again u hu hfills
        by_cases hu' : (write u a).failure = none
        · obtain ⟨hstore', hgood'⟩ := rest.later hrest u hu hfills
          rw [writeEach_cons_of_eq_none hu', hstore, List.forall_mem_cons]
          exact ⟨hstore', by rw [hgood', and_iff_right (hgood.mp hu')]⟩
        · rw [writeEach_cons_of_ne_none hu', List.forall_mem_cons]
          exact ⟨hstore, iff_of_false hu' fun h => hu' (hgood.mpr h.1)⟩
      · rw [heq] at hrest ⊢
        obtain ⟨hstore, -⟩ := again _ rest.sound (.refl _)
        by_cases hu' : (write (Store.writeEach write (write s a).store as).store a).failure = none
        · rw [writeEach_cons_of_eq_none hu', hstore]
          exact rest.stuck hrest
        · rw [writeEach_cons_of_ne_none hu']
          exact ⟨hstore, hu'⟩
    · have heq : Store.writeEach write s (a :: as) = _ := writeEach_cons_of_ne_none hfirst
      obtain ⟨hstore, hfails⟩ := first.stuck hfirst
      refine ⟨heq ▸ first.sound, heq ▸ first.fills, fun h => absurd (heq ▸ h) hfirst, fun _ => ?_⟩
      rw [heq, writeEach_cons_of_ne_none hfails]
      exact ⟨hstore, hfails⟩

end Each

theorem repeats_unifyVar (h : s.Sound) (hn : s.isLive n) (hvar : s.isLive var) :
    Repeats (fun u => u.unifyVar chan (.reference n) var)
      (fun u => u.Agree (.reference n) (u.type var)) s := by
  obtain ⟨hsound, hfills, hmet, hfailed⟩ := unifyVar_meets h hn hvar chan
  refine ⟨hsound, hfills, fun _ u hu hsu => ?_, fun hfails => ?_⟩
  · have hlive := (hfills.trans hsu).retypes.isLive_eq
    have hmet' := hmet.of_fills hsu
    rw [hmet'.unifyVar_eq hu ((hlive n).trans hn) ((hlive var).trans hvar), ← equal_iff_agree]
    split
    · next hequal => exact ⟨rfl, by simp [hequal]⟩
    · next hequal => exact ⟨rfl, by simp [hequal]⟩
  · have hstore := hfailed hfails
    rw [hstore]
    exact ⟨hstore, hfails⟩

/-- Whether a channel carries as many names as a receive on it has variables, of types that stand
for the same trees. -/
def Fits (s : Store) (chan : Name) (vars : List Name) : Prop :=
  ∃ elem, s.deref (s.type chan) = .chan elem ∧ elem.arity = vars.length ∧
    ∀ q ∈ elem.elements.zip vars, s.Agree q.1 (s.type q.2)

theorem fits_iff_of_chan {ns : List Name} (hd : s.deref (s.type chan) = .chan (.carrying ns))
    (harity : (Ty.carrying ns).arity = vars.length) : s.Fits chan vars ↔
      ∀ q ∈ (Ty.carrying ns).elements.zip vars, s.Agree q.1 (s.type q.2) := by
  rw [Fits, hd]
  constructor
  · rintro ⟨elem, ⟨⟩, -, hagree⟩
    exact hagree
  · exact fun hagree => ⟨_, rfl, harity, hagree⟩

theorem Fills.deref_chan_eq {ns : List Name} (hf : s.Fills u)
    (hd : s.deref (s.type chan) = .chan (.carrying ns)) :
    u.deref (u.type chan) = .chan (.carrying ns) := by
  have hknown : s.type chan ≠ .untyped := by
    intro hu
    rw [hu, deref_untyped] at hd
    cases hd
  rw [hf.keeps chan hknown, hf.deref_eq (by simp [hd]), hd]

theorem unifyReceive_of_chan {ns : List Name} (hd : s.deref (s.type chan) = .chan (.carrying ns))
    (harity : (Ty.carrying ns).arity = vars.length) : s.unifyReceive chan vars =
      s.writeEach (fun s q => s.unifyVar chan q.1 q.2) ((Ty.carrying ns).elements.zip vars) := by
  rw [unifyReceive, hd]
  exact if_pos harity

theorem repeats_unifyReceive (chan : Name) (h : s.Sound) (hvars : ∀ x ∈ vars, s.isLive x) :
    Repeats (fun u => u.unifyReceive chan vars) (fun u => u.Fits chan vars) s := by
  by_cases hchan : ∃ elem, s.deref (s.type chan) = .chan elem
  · obtain ⟨elem, helem⟩ := hchan
    obtain ⟨ns, rfl, hns⟩ := h.shallow.deref_eq_chan helem
    by_cases harity : (Ty.carrying ns).arity = vars.length
    -- Names stay live, so this holds for each pair, whatever has been written for those before it.
    · have each : ∀ q ∈ (Ty.carrying ns).elements.zip vars, ∀ u, u.Sound → s.Fills u →
          Repeats (fun u => u.unifyVar chan q.1 q.2) (fun u => u.Agree q.1 (u.type q.2)) u := by
        rintro ⟨x, var⟩ hq u hu hsu
        obtain ⟨hx, hvar⟩ := List.of_mem_zip hq
        rw [Ty.elements_carrying] at hx
        obtain ⟨n, hn, rfl⟩ := List.mem_map.mp hx
        have hlive := hsu.retypes.isLive_eq
        exact repeats_unifyVar hu ((hlive n).trans (hns n hn)) ((hlive var).trans (hvars var hvar))
      refine (Repeats.writeEach h each).congr (fun u hsu => ?_) fun u hsu => ?_
      · exact unifyReceive_of_chan (hsu.deref_chan_eq helem) harity
      · exact fits_iff_of_chan (hsu.deref_chan_eq helem) harity
    · refine .of_failure h ?_
      rw [unifyReceive, helem]
      exact ⟨_, if_neg harity⟩
  · refine .of_failure h ?_
    rw [unifyReceive]
    split
    · next elem helem => exact absurd ⟨elem, helem⟩ hchan
    · exact ⟨_, rfl⟩

/-- Whether channels and variables fit at every receive. -/
def Consistent (s : Store) (p : Process Name) : Prop :=
  ∀ r ∈ p.receives, s.Fits r.1 r.2

theorem repeats_unify {p : Process Name} (h : s.Sound) (live : ∀ n ∈ p.occurrences, s.isLive n) :
    Repeats (fun u => u.unify p) (fun u => u.Consistent p) s := by
  refine Repeats.writeEach h fun r hr u hu hsu => ?_
  refine repeats_unifyReceive _ hu fun x hx => (hsu.retypes.isLive_eq x).trans (live x ?_)
  exact (Process.mem_occurrences_of_receives hr).2 x hx

end PiCalculus.Store
