import Mathlib
import PiCalculus.Proofs.Operation.Runs
import PiCalculus.Proofs.Store.Comparing
import PiCalculus.Proofs.Text.RoundTrip
import PiCalculus.Proofs.Typing.Assignments
import PiCalculus.Proofs.Typing.ByUse
import PiCalculus.Proofs.Typing.Checking

/-! The labels of base types. They are the hints of a text and so are words, and typing makes no others.
So the text of a type in a program that was read says which type it is. -/

namespace PiCalculus

namespace Store

def Worded (s : Store) : Prop := ∀ n, ∀ label ∈ (s.type n).labels, IsWord label

variable {s : Store} {n chan var : Name} {elem type : Ty Name}

theorem labels_pointer (s : Store) (n : Name) : (s.pointer n).labels = [] := by
  unfold pointer
  split <;> rw [Ty.labels]

theorem labels_element (s : Store) (names : List Name) : (Ty.chan (s.element names)).labels = [] := by
  rw [Ty.labels]
  unfold element
  split
  · exact s.labels_pointer _
  · rw [Ty.labels, List.flatMap_map]
    exact List.flatMap_eq_nil_iff.mpr fun n _ => s.labels_pointer n

theorem labels_of_mem_elements {label : String} (h : type ∈ elem.elements) (hl : label ∈ type.labels) :
    label ∈ elem.labels := by
  cases elem with
  | composite ts =>
    rw [Ty.labels]
    exact List.mem_flatMap.mpr ⟨type, h, hl⟩
  | _ =>
    obtain rfl := List.mem_singleton.mp h
    exact hl

namespace Worded

theorem setType (h : s.Worded) (n : Name) (htype : ∀ label ∈ type.labels, IsWord label) :
    (s.setType n type).store.Worded := by
  intro m label hl
  rcases s.type_setType n type m with hsame | ⟨-, -, hset⟩
  · exact h m label (hsame ▸ hl)
  · exact htype label (hset ▸ hl)

theorem deref (h : s.Worded) (n : Name) : ∀ label ∈ (s.deref (s.type n)).labels, IsWord label := by
  intro label hl
  rcases s.deref_eq_self_or_type (s.type n) with heq | ⟨m, -, heq⟩ | heq
  · exact h n label (heq ▸ hl)
  · exact h m label (heq ▸ hl)
  · rw [heq, Ty.labels] at hl
    cases hl

variable (p : Process Name)

theorem infer (h : s.Worded) : (s.infer p).store.Worded := by
  apply infer_store_induction (motive := Worded) h
  intro t ht n names
  apply ht.setType
  simp [t.labels_element]

theorem unifyVar (h : s.Worded) (chan var : Name) (helem : ∀ label ∈ elem.labels, IsWord label) :
    (s.unifyVar chan elem var).store.Worded := by
  apply unifyVar_store_induction (motive := Worded) h
  rintro n type - - (rfl | rfl)
  · exact h.setType n helem
  · exact h.setType n (h var)

theorem unify (h : s.Worded) : (s.unify p).store.Worded := by
  apply unify_store_induction (motive := Worded) h
  intro t chan carried ht hcarried elem helem var u hu
  have hchan := ht.deref chan
  rw [hcarried, Ty.labels] at hchan
  apply hu.unifyVar
  intro label hl
  exact hchan label (labels_of_mem_elements helem hl)

theorem inferAndUnify (h : s.Worded) : (s.inferAndUnify p).store.Worded :=
  inferAndUnify_store_induction (h.infer p) fun _ ht => ht.unify p

end Worded

end Store

namespace Grammar

abbrev TerminalOf (ts : List Token) (k : TokenKind) := { t : Terminal k // t.val ∈ ts }

/-- What tokens derive is derived with them known to be among these tokens. -/
theorem Composition.exists_of_tokens {ts : List Token} (c : Composition Terminal) (h : c.tokens = ts) :
    ∃ d : Composition (TerminalOf ts), d.map (fun _ t => t.val) = c := by
  have hmem : ∀ l ∈ c.leaves, l.token ∈ ts := by
    intro l hl
    rw [← h]
    exact List.mem_map_of_mem hl
  have hleaves : (c.leaves.pmap (fun l hl => (⟨l.1, l.2, hl⟩ : Leaf (TerminalOf ts))) hmem).map
      (Leaf.map fun _ t => t.val) = c.leaves := by
    rw [List.map_pmap]
    exact (List.pmap_eq_map _).trans (List.map_id _)
  obtain ⟨d, -, hd⟩ := Composition.exists_map_eq _ c hleaves
  exact ⟨d, hd⟩

end Grammar

namespace Program

variable {source : String} {p : Program}

theorem isIdentifier_of_hint (parsed : Program.parse source = .ok p) {n : Name}
    (hn : n ∈ p.process.occurrences) {hint : String} (hhint : p.store.hint n = some hint) :
    IsIdentifier hint := by
  obtain ⟨c, hc, hp⟩ := parse_eq_ok_iff.mp parsed
  have hload : p.process.map p.store.get? = c.denote fun n hint => some (Grammar.written n hint) := by
    rw [← hp]
    exact map_get?_load c
  obtain ⟨d, rfl⟩ := c.exists_of_tokens hc
  rw [Grammar.Composition.denote_map] at hload
  have hentry := List.mem_map_of_mem (f := p.store.get?) hn
  rw [← Process.occurrences_map, hload] at hentry
  obtain ⟨t, announced, heq, -⟩ := Grammar.Composition.mem_occurrences_denote _ d hentry
  rw [Store.hint, heq] at hhint
  cases announced with
  | none => cases hhint
  | some word =>
    cases hhint
    exact isIdentifier_of_mem_scan word.property word.val.property

theorem worded_held (parsed : Program.parse source = .ok p) : p.held.Worded := by
  intro n label hl
  have hn : n ∈ p.bound.occurrences := by
    by_contra hout
    have hnone : p.held.get? n = none := by rw [held, Store.get?_retain, if_neg hout]
    rw [Store.type_of_get?_none hnone, Ty.labels] at hl
    cases hl
  have hocc : n ∈ p.process.occurrences :=
    (Process.mem_occurrences_bindIn hn).resolve_left List.not_mem_nil
  rw [type_held_eq_hint parsed hn, Store.hint, held_get? hn, ← Store.hint] at hl
  cases hhint : p.store.hint n with
  | none => simp [hhint, Ty.labels] at hl
  | some hint =>
    obtain rfl : label = hint := by simpa [hhint, Ty.labels] using hl
    exact (isIdentifier_of_hint parsed hocc hhint).isWord

end Program

end PiCalculus
