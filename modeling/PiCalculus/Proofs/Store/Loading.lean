import Mathlib
import PiCalculus.Proofs.Process.Structure
import PiCalculus.Program

/-! The names of a process that has been loaded: one for every occurrence, all different, with what
was written there as its entry. -/

namespace PiCalculus

namespace Store

/-- Whether one store knows of the names of another one what that knows of them. -/
def Extends (t s : Store) : Prop :=
  s.size ≤ t.size ∧ ∀ n : Name, n.id < s.size → t.get? n = s.get? n

theorem Extends.refl (s : Store) : s.Extends s := ⟨Nat.le_refl _, fun _ _ => rfl⟩

theorem Extends.trans {s t u : Store} (h : u.Extends t) (h' : t.Extends s) : u.Extends s :=
  ⟨h'.1.trans h.1, fun n hn => (h.2 n (hn.trans_le h'.1)).trans (h'.2 n hn)⟩

theorem size_add (s : Store) (e : Entry) : (s.add e).2.size = s.size + 1 := by
  simp [add, size]

theorem add_extends (s : Store) (e : Entry) : (s.add e).2.Extends s := by
  refine ⟨by simp [size_add], fun n hn => ?_⟩
  rw [get?_add, if_neg]
  rintro rfl
  exact absurd hn (Nat.lt_irrefl _)

/-- Makes a new name of an occurrence. -/
def announce (o : Occurrence) : StateM Store Name := fun s => s.add o.entry

/-- Whether so many new names with identities in a row lead from one store to another one. -/
structure Grows (s t : Store) (ns : List Name) : Prop where
  ext : t.Extends s
  size_eq : t.size = s.size + ns.length
  ids : ns.map (·.id) = List.range' s.size ns.length

theorem Grows.nil (s : Store) : s.Grows s [] := ⟨.refl s, rfl, rfl⟩

theorem Grows.append {s t u : Store} {ns ms : List Name} (h : s.Grows t ns) (h' : t.Grows u ms) :
    s.Grows u (ns ++ ms) := by
  refine ⟨h'.ext.trans h.ext, ?_, ?_⟩
  · rw [h'.size_eq, h.size_eq, List.length_append, Nat.add_assoc]
  · rw [List.map_append, h.ids, h'.ids, h.size_eq, List.length_append, List.range'_append_1]

theorem announce_grows (s : Store) (o : Occurrence) :
    s.Grows ((announce o).run s).2 [((announce o).run s).1] :=
  ⟨add_extends .., size_add .., by simp [announce, StateT.run, add]⟩

theorem get?_announce {s t : Store} {o : Occurrence} (h : t.Extends ((announce o).run s).2) :
    t.get? ((announce o).run s).1 = some o.entry := by
  have hid : ((announce o).run s).1.id < ((announce o).run s).2.size := by
    rw [(announce_grows s o).size_eq]
    simp [announce, StateT.run, add]
  rw [h.2 _ hid]
  simp [announce, StateT.run, get?_add]

theorem mapM_announce (os : List Occurrence) (s : Store) :
    s.Grows ((os.mapM announce).run s).2 ((os.mapM announce).run s).1 ∧
      ∀ t : Store, t.Extends ((os.mapM announce).run s).2 →
        ((os.mapM announce).run s).1.map t.get? = os.map fun o => some o.entry := by
  induction os generalizing s with
  | nil => exact ⟨.nil s, fun t _ => rfl⟩
  | cons o os ih =>
    obtain ⟨hgrows, hget⟩ := ih ((announce o).run s).2
    rw [List.mapM_cons]
    refine ⟨(announce_grows s o).append hgrows, fun t ht => ?_⟩
    exact congrArg₂ List.cons (get?_announce (ht.trans hgrows.ext)) (hget t ht)

theorem run_bind {α β : Type} (x : StateM Store α) (f : α → StateM Store β) (s : Store) :
    (x >>= f).run s = (f (x.run s).1).run (x.run s).2 := rfl

theorem run_pure {α : Type} (a : α) (s : Store) : (pure a : StateM Store α).run s = (a, s) := rfl

/-- The outcome of announcing the occurrences of a process. -/
def Announces (p : Process Occurrence) (s : Store) : Prop :=
  s.Grows ((p.mapM announce).run s).2 ((p.mapM announce).run s).1.occurrences ∧
    ∀ t : Store, t.Extends ((p.mapM announce).run s).2 →
      ((p.mapM announce).run s).1.map t.get? = p.map fun o => some o.entry

theorem mapM_announces {ps : List (Process Occurrence)} (h : ∀ p ∈ ps, ∀ s, Announces p s)
    (s : Store) :
    s.Grows ((ps.mapM (Process.mapM announce)).run s).2
        (((ps.mapM (Process.mapM announce)).run s).1.flatMap Process.occurrences) ∧
      ∀ t : Store, t.Extends ((ps.mapM (Process.mapM announce)).run s).2 →
        ((ps.mapM (Process.mapM announce)).run s).1.map (Process.map t.get?) =
          ps.map (Process.map fun o => some o.entry) := by
  induction ps generalizing s with
  | nil => exact ⟨.nil s, fun _ _ => rfl⟩
  | cons p ps ih =>
    obtain ⟨hp, hps⟩ := List.forall_mem_cons.mp h
    obtain ⟨hhead, hgetHead⟩ := hp s
    obtain ⟨htail, hgetTail⟩ := ih hps ((p.mapM announce).run s).2
    simp only [List.mapM_cons, run_bind, run_pure, List.flatMap_cons, List.map_cons,
      List.cons.injEq]
    exact ⟨hhead.append htail, fun t ht => ⟨hgetHead t (ht.trans htail.ext), hgetTail t ht⟩⟩

theorem announces (p : Process Occurrence) (s : Store) : Announces p s := by
  unfold Announces
  induction p generalizing s with
  | nil =>
    simp only [Process.mapM, run_pure, Process.occurrences, Process.map]
    exact ⟨.nil s, fun _ _ => trivial⟩
  | send chan values =>
    obtain ⟨hvalues, hget⟩ := mapM_announce values ((announce chan).run s).2
    simp only [Process.mapM, run_bind, run_pure, Process.occurrences, Process.map,
      Process.send.injEq]
    exact ⟨(announce_grows s chan).append hvalues, fun t ht =>
      ⟨get?_announce (ht.trans hvalues.ext), hget t ht⟩⟩
  | receive chan vars body ih =>
    -- What is announced later leaves the entries that are there.
    obtain ⟨hvars, hgetVars⟩ := mapM_announce vars ((announce chan).run s).2
    obtain ⟨hbody, hgetBody⟩ := ih ((vars.mapM announce).run ((announce chan).run s).2).2
    simp only [Process.mapM, run_bind, run_pure, Process.occurrences, Process.map,
      Process.receive.injEq]
    exact ⟨(announce_grows s chan).append (hvars.append hbody), fun t ht =>
      ⟨get?_announce (ht.trans (hbody.ext.trans hvars.ext)), hgetVars t (ht.trans hbody.ext),
        hgetBody t ht⟩⟩
  | par ps ih =>
    obtain ⟨hps, hget⟩ := mapM_announces ih s
    rw [Process.mapM, List.mapM_subtype fun _ _ => rfl]
    simp only [List.unattach_attach, run_bind, run_pure, Process.occurrences, Process.map,
      Process.par.injEq]
    exact ⟨hps, hget⟩
  | replicate body ih =>
    simp only [Process.mapM, run_bind, run_pure, Process.occurrences, Process.map,
      Process.replicate.injEq]
    exact ih s
  | restrict name body ih =>
    obtain ⟨hbody, hget⟩ := ih ((announce name).run s).2
    simp only [Process.mapM, run_bind, run_pure, Process.occurrences, Process.map,
      Process.restrict.injEq]
    exact ⟨(announce_grows s name).append hbody, fun t ht =>
      ⟨get?_announce (ht.trans hbody.ext), hget t ht⟩⟩

variable (s : Store) (p : Process Occurrence)

theorem load_grows : s.Grows (s.load p).2 (s.load p).1.occurrences := (announces p s).1

theorem map_get?_load : (s.load p).1.map (s.load p).2.get? = p.map fun o => some o.entry :=
  (announces p s).2 _ (.refl _)

theorem load_occurrences_nodup : (s.load p).1.occurrences.Nodup := by
  have h : ((s.load p).1.occurrences.map (·.id)).Nodup := by
    rw [(s.load_grows p).ids]
    exact List.nodup_range'
  exact h.of_map

/-- Every name of a loaded process is alive and as new. -/
theorem get?_load {n : Name} (h : n ∈ (s.load p).1.occurrences) :
    ∃ o ∈ p.occurrences, (s.load p).2.get? n = some o.entry := by
  have hmap := congrArg Process.occurrences (map_get?_load s p)
  rw [Process.occurrences_map, Process.occurrences_map] at hmap
  have hn : (s.load p).2.get? n ∈ p.occurrences.map fun o => some o.entry :=
    hmap ▸ List.mem_map_of_mem h
  obtain ⟨o, ho, heq⟩ := List.mem_map.mp hn
  exact ⟨o, ho, heq.symm⟩

/-- There are no other names in a store that a process was loaded into first. -/
theorem mem_occurrences_of_get?_load {n : Name} {e : Entry}
    (h : (Store.empty.load p).2.get? n = some e) : n ∈ (Store.empty.load p).1.occurrences := by
  have hsize : n.id < (Store.empty.load p).2.size := by
    by_contra hn
    rw [get?, Array.getElem?_eq_none (Nat.le_of_not_lt hn)] at h
    cases h
  have hgrows := Store.empty.load_grows p
  have hid : n.id ∈ (Store.empty.load p).1.occurrences.map (·.id) := by
    rw [hgrows.ids, List.mem_range'_1]
    rw [hgrows.size_eq] at hsize
    exact ⟨Nat.zero_le _, hsize⟩
  obtain ⟨m, hm, heq⟩ := List.mem_map.mp hid
  obtain rfl : m = n := by
    cases m
    cases n
    exact congrArg Name.mk heq
  exact hm

theorem exists_entry_of_get?_load {n : Name} {e : Entry}
    (h : (Store.empty.load p).2.get? n = some e) : ∃ o ∈ p.occurrences, e = o.entry := by
  obtain ⟨o, ho, hget⟩ := Store.empty.get?_load p (mem_occurrences_of_get?_load p h)
  rw [h, Option.some.injEq] at hget
  exact ⟨o, ho, hget⟩

end Store

theorem Program.parse_eq_ok_iff_all {source : String} {p : Program} :
    Program.parse source = .ok p ↔ ∃ written, Parser.all (tokens source) = .ok written ∧
      ⟨(Store.empty.load written).1, (Store.empty.load written).2⟩ = p := by
  unfold Program.parse PiCalculus.parse
  cases Parser.all (tokens source) <;> simp [Except.map, Except.mapError]

/-- What is to hold of the program that is read can be tested by reading it. -/
instance Program.decidableExistsParse (source : String) (P : Program → Prop) [DecidablePred P] :
    Decidable (∃ p, Program.parse source = .ok p ∧ P p) :=
  match h : Program.parse source with
  | .ok p => decidable_of_iff (P p) (by simp)
  | .error _ => .isFalse (by simp)

end PiCalculus
