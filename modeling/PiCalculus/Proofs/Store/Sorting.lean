import Mathlib
import PiCalculus.Proofs.Process.BreadthFirst
import PiCalculus.Proofs.Reduction.Step
import PiCalculus.Proofs.Store.Loading
import PiCalculus.Proofs.Store.Writing
import PiCalculus.Sorting

/-! Sorts that are set and set back. Only names of a process are made variables, and all its names are
made names again, so nothing is left of it in a store where all names had the ordinary sort. -/

namespace PiCalculus

theorem Process.variablesAmong_subset (known : List Name) (ps : List (Process Name)) :
    variablesAmong known ps ⊆ ps.flatMap rootNames := by
  induction ps generalizing known with
  | nil => simp [variablesAmong]
  | cons p ps ih =>
    rw [List.flatMap_cons]
    intro n hn
    rw [List.mem_append]
    cases p with
    | receive chan vars body =>
      rw [variablesAmong, List.mem_append] at hn
      exact hn.imp (List.mem_cons_of_mem _) fun hn => ih _ hn
    | send chan values =>
      rw [variablesAmong, List.mem_append] at hn
      exact hn.imp (fun hn => List.mem_cons_of_mem _ (List.mem_of_mem_filter hn)) fun hn => ih _ hn
    | nil => exact .inr (ih known hn)
    | par qs => exact .inr (ih known hn)
    | replicate body => exact .inr (ih known hn)
    | restrict name body => exact .inr (ih (name :: known) hn)

theorem Process.variables_subset_walk (p : Process Name) : p.variables ⊆ p.walk :=
  variablesAmong_subset [] _

namespace Store

variable {s t u : Store} {sort : NameSort}

/-- Two stores differ in the sorts of names at most. -/
def Resorts (s t : Store) : Prop := ∀ n, ∃ sort, t.get? n = (s.get? n).map fun e => { e with sort }

namespace Resorts

theorem refl (s : Store) : s.Resorts s := fun n =>
  ⟨s.sort n, by cases h : s.get? n <;> simp [Store.sort, h]⟩

theorem trans (h : s.Resorts t) (h' : t.Resorts u) : s.Resorts u := by
  intro n
  obtain ⟨sort, hsort⟩ := h n
  obtain ⟨sort', hsort'⟩ := h' n
  refine ⟨sort', ?_⟩
  rw [hsort', hsort, Option.map_map]
  rfl

theorem isLive_eq (h : s.Resorts t) (n : Name) : t.isLive n = s.isLive n := by
  obtain ⟨sort, hsort⟩ := h n
  rw [isLive, isLive, hsort, Option.isSome_map]

theorem isConstant_eq (h : s.Resorts t) (n : Name) : t.isConstant n = s.isConstant n := by
  obtain ⟨sort, hsort⟩ := h n
  rw [isConstant, isConstant, hsort, Option.map_map]
  rfl

theorem retain_eq (h : s.Resorts t) {owned : List Name} (ho : ∀ n, s.isLive n → n ∈ owned) :
    t.retain owned = t :=
  retain_eq_self fun n hn => ho n ((h.isLive_eq n).symm.trans hn)

end Resorts

theorem resorts_setSort (s : Store) (n : Name) (sort : NameSort) :
    s.Resorts (s.setSort n sort).store := by
  unfold setSort write
  split
  · exact .refl s
  · intro m
    by_cases hm : m = n
    · exact ⟨sort, by rw [get?_modify, if_pos hm]⟩
    · rw [get?_modify, if_neg hm]
      exact Resorts.refl s m

theorem resorts_writeEach {α : Type} {write : Store → α → Written}
    (h : ∀ (s : Store) a, s.Resorts (write s a).store) (s : Store) (as : List α) :
    s.Resorts (writeEach write s as).store := by
  apply writeEach_store_induction (motive := s.Resorts) (.refl s)
  intro a _ t ht
  exact ht.trans (h t a)

theorem resorts_identifySorts (s : Store) (p : Process Name) :
    s.Resorts (s.identifySorts p).store :=
  resorts_writeEach (fun s n => s.resorts_setSort n _) s _

theorem resorts_inferSortsBySpelling (s : Store) (p : Process Name) :
    s.Resorts (s.inferSortsBySpelling p).store := by
  refine resorts_writeEach (fun s n => ?_) s _
  split
  · exact s.resorts_setSort n _
  · exact .refl s

theorem resorts_resetSorts (s : Store) (p : Process Name) : s.Resorts (s.resetSorts p).store := by
  refine resorts_writeEach (fun s n => ?_) s _
  split
  · exact .refl s
  · exact s.resorts_setSort n _

theorem isConstant_retain (writable : ∀ n, s.isConstant n = false) (owned : List Name) (n : Name) :
    (s.retain owned).isConstant n = false := by
  have hn := writable n
  unfold isConstant at hn ⊢
  rw [get?_retain]
  split
  · exact hn
  · rfl

theorem sort_of_get? {n : Name} {e : Entry} (h : s.get? n = some e) : s.sort n = e.sort := by
  rw [Store.sort, h, Option.map_some, Option.getD_some]

/-- All names have the ordinary sort and may be written to. -/
structure Plain (s : Store) : Prop where
  ordinary : ∀ n, s.sort n = .name
  writable : ∀ n, s.isConstant n = false

theorem plain_of_get? (h : ∀ n e, s.get? n = some e → e.sort = .name ∧ e.constant = false) :
    s.Plain := by
  constructor
  · intro n
    unfold Store.sort
    cases he : s.get? n with
    | none => rfl
    | some e => exact (h n e he).1
  · intro n
    unfold isConstant
    cases he : s.get? n with
    | none => rfl
    | some e => exact (h n e he).2

theorem Plain.of_get? (h : s.Plain) {n : Name} {e : Entry} (he : s.get? n = some e) :
    e.sort = .name ∧ e.constant = false := by
  have hconstant := h.writable n
  rw [isConstant, he] at hconstant
  exact ⟨(sort_of_get? he).symm.trans (h.ordinary n), hconstant⟩

theorem Plain.retain (h : s.Plain) (owned : List Name) : (s.retain owned).Plain := by
  apply plain_of_get?
  intro n e he
  rw [get?_retain] at he
  split at he
  · exact h.of_get? he
  · cases he

theorem Plain.relabel (h : s.Plain) (names : List Name) (newLabel : String → String) :
    (s.relabel names newLabel).Plain := by
  apply plain_of_get?
  intro n e he
  rw [get?_relabel, Option.map_eq_some_iff] at he
  obtain ⟨old, hold, rfl⟩ := he
  have hplain := h.of_get? hold
  split
  · exact hplain
  · exact hplain

theorem plain_load (written : Process Occurrence) : (Store.empty.load written).2.Plain := by
  apply plain_of_get?
  intro n e he
  obtain ⟨⟨label, hint, span⟩, -, rfl⟩ := exists_entry_of_get?_load written he
  cases hint <;> exact ⟨rfl, rfl⟩

/-- Where no name is constant, every name of a list gets the sort that is written to each of them. -/
theorem writeEach_setSort {write : Store → Name → Written}
    (hw : ∀ (s : Store) n, s.isConstant n = false → write s n = s.setSort n sort)
    (names : List Name) (writable : ∀ n, s.isConstant n = false) :
    ∃ t, s.writeEach write names = ⟨t, none⟩ ∧ t.size = s.size ∧
      ∀ n, t.get? n = (s.get? n).map fun e => if n ∈ names then { e with sort } else e := by
  induction names generalizing s with
  | nil => exact ⟨s, rfl, rfl, fun n => by simp⟩
  | cons m names ih =>
    have hset : s.setSort m sort = ⟨s.modify m fun e => { e with sort }, none⟩ := by
      rw [setSort, Store.write, writable m]
      rfl
    have hresorts := s.resorts_setSort m sort
    rw [hset] at hresorts
    obtain ⟨t, ht, hsize, hget⟩ := ih fun n => (hresorts.isConstant_eq n).trans (writable n)
    refine ⟨t, ?_, hsize.trans (size_modify ..), fun n => ?_⟩
    · rw [writeEach, hw s m (writable m), hset]
      exact ht
    · rw [hget, get?_modify]
      by_cases hn : n = m
      · rw [if_pos hn, Option.map_map]
        congr 1
        funext e
        simp [hn]
      · simp [hn]

theorem identifySorts_eq (writable : ∀ n, s.isConstant n = false) (p : Process Name) :
    ∃ t, s.identifySorts p = ⟨t, none⟩ ∧ t.size = s.size ∧
      ∀ n, t.get? n = (s.get? n).map fun e =>
        if n ∈ p.variables then { e with sort := .var } else e :=
  writeEach_setSort (fun _ _ _ => rfl) p.variables writable

theorem resetSorts_eq (writable : ∀ n, s.isConstant n = false) (p : Process Name) :
    ∃ t, s.resetSorts p = ⟨t, none⟩ ∧ t.size = s.size ∧
      ∀ n, t.get? n = (s.get? n).map fun e =>
        if n ∈ p.walk then { e with sort := .name } else e := by
  apply writeEach_setSort _ p.walk writable
  intro s n hn
  rw [hn]
  rfl

/-- What identifying sorts writes is gone when the sorts are reset. -/
theorem Plain.reset_identified (h : s.Plain) (p : Process Name) :
    ∃ t, s.identifySorts p = ⟨t, none⟩ ∧ (∀ n, t.isLive n = s.isLive n) ∧
      t.resetSorts p = ⟨s, none⟩ := by
  obtain ⟨t, hidentify, hsize, hget⟩ := identifySorts_eq h.writable p
  have hresorts := s.resorts_identifySorts p
  rw [hidentify] at hresorts
  obtain ⟨u, hreset, hsize', hget'⟩ :=
    resetSorts_eq (fun n => (hresorts.isConstant_eq n).trans (h.writable n)) p
  refine ⟨t, hidentify, hresorts.isLive_eq, ?_⟩
  have hback : u = s := by
    apply ext_get? (hsize'.trans hsize)
    intro n
    rw [hget', hget]
    cases he : s.get? n with
    | none => rfl
    | some e =>
      have hsort := (h.of_get? he).1
      have hsubset := @p.variables_subset_walk n
      obtain ⟨label, sort, type, hint, constant, span⟩ := e
      dsimp only at hsort
      subst hsort
      -- Only what stands in the process was made a variable, and all of that is reset.
      by_cases hv : n ∈ p.variables
      · simp [hv, hsubset hv]
      · simp [hv]
  rw [hreset, hback]

end Store

theorem Program.plain_of_parse {source : String} {p : Program}
    (parsed : Program.parse source = .ok p) : p.store.Plain := by
  obtain ⟨written, -, rfl⟩ := parse_eq_ok_iff_all.mp parsed
  exact Store.plain_load written

end PiCalculus
