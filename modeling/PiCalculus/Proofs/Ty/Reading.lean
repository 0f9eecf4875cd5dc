import Mathlib
import PiCalculus.Proofs.Text.Lexing
import PiCalculus.Ty.Basic

/-! Reading types back from their texts. A text begins with a word, which is the keyword of the type or
the label of a base type. What comes next tells a label from a keyword that is spelled like it. So the
text of a type says which type it is, and in a longer text also where the type ends. -/

namespace PiCalculus

/-- Every identifier is a word, and so is `new`. -/
def IsWord (label : String) : Prop := ∀ c ∈ label.toList, isWordChar c

theorem IsIdentifier.isWord {label : String} (h : IsIdentifier label) : IsWord label := by
  obtain ⟨c, cs, hlist, hc, hcs, -⟩ := h
  rw [IsWord, hlist]
  exact List.forall_mem_cons.mpr ⟨by simp [isWordChar, Char.isAlphanum, hc], hcs⟩

/-- A word is read up to where it ends. -/
theorem IsWord.append_inj {w w' : String} {cs cs' : List Char} (hw : IsWord w) (hw' : IsWord w')
    (hcs : EndsWord cs) (hcs' : EndsWord cs') (h : w.toList ++ cs = w'.toList ++ cs') :
    w = w' ∧ cs = cs' := by
  have htake := congrArg (List.takeWhile isWordChar) h
  have hdrop := congrArg (List.dropWhile isWordChar) h
  rw [takeWhile_append_of_endsWord hw hcs, takeWhile_append_of_endsWord hw' hcs'] at htake
  rw [dropWhile_append_of_endsWord hw hcs, dropWhile_append_of_endsWord hw' hcs'] at hdrop
  exact ⟨String.toList_inj.mp htake, hdrop⟩

/-- What may follow a type in the text of a larger one. -/
def EndsType (cs : List Char) : Prop := ∀ c ∈ cs.head?, c = ';' ∨ c = '\x7d'

theorem EndsType.endsWord {cs : List Char} (h : EndsType cs) : EndsWord cs := by
  intro c hc
  rcases h c hc with rfl | rfl <;> decide

namespace Ty

def labels {ρ : Type} : Ty ρ → List String
  | untyped | reference _ => []
  | base label => [label]
  | chan t => t.labels
  | composite ts => ts.flatMap labels
termination_by t => sizeOf t

theorem mem_labels_bind {ρ σ : Type} {f : ρ → Ty σ} {t : Ty ρ} {label : String}
    (h : label ∈ (t.bind f).labels) :
    label ∈ t.labels ∨ ∃ n ∈ t.references, label ∈ (f n).labels := by
  fun_induction references t with
  | case1 =>
    rw [bind, labels] at h
    cases h
  | case2 other =>
    rw [bind, labels] at h
    exact .inl (by rwa [labels])
  | case3 t ih =>
    rw [bind, labels] at h
    rw [labels]
    exact ih h
  | case4 ts ih =>
    rw [bind, labels, List.flatMap_map, List.mem_flatMap] at h
    obtain ⟨t, ht, hl⟩ := h
    rcases ih t ht hl with hl | ⟨n, hn, hl⟩
    · exact .inl (by rw [labels]; exact List.mem_flatMap.mpr ⟨t, ht, hl⟩)
    · exact .inr ⟨n, List.mem_flatMap.mpr ⟨t, ht, hn⟩, hl⟩
  | case5 n => exact .inr ⟨n, List.mem_singleton_self n, by rwa [bind] at h⟩

/-- All base types are labelled with words. -/
def Worded (t : Shape) : Prop := ∀ label ∈ t.labels, IsWord label

variable {t u : Shape} {ts us : List Shape} {cs cs' : List Char}

theorem worded_chan : Worded (.chan t) ↔ t.Worded := by rw [Worded, labels, Worded]

theorem worded_composite : Worded (.composite ts) ↔ ∀ t ∈ ts, t.Worded := by
  rw [Worded, labels]
  simp only [List.mem_flatMap, Worded]
  exact ⟨fun h t ht label hl => h label ⟨t, ht, hl⟩, fun h label ⟨t, ht, hl⟩ => h t ht label hl⟩

def fields (i : Nat) (ts : List Shape) : String :=
  ";".intercalate ((ts.map render).mapIdx fun j text => "e" ++ toString (i + j) ++ " " ++ text)

/-- What comes after a field if these are the ones that are left. -/
def closing (i : Nat) : List Shape → List Char
  | [] => ['\x7d']
  | ts => ';' :: (fields i ts).toList ++ ['\x7d']

theorem toList_fields_cons (i : Nat) (t : Shape) (ts : List Shape) :
    (fields i (t :: ts)).toList ++ ['\x7d'] =
      ("e" ++ toString i ++ " ").toList ++ (t.render.toList ++ closing (i + 1) ts) := by
  cases ts with
  | nil => simp [fields, closing]
  | cons u us =>
    have hshift : (fun j text => "e" ++ toString (i + (j + 1)) ++ " " ++ text) =
        fun j text => "e" ++ toString (i + 1 + j) ++ " " ++ text := by
      funext j text
      rw [Nat.add_assoc i 1 j, Nat.add_comm 1 j]
    rw [closing, fields, fields, List.map_cons, List.mapIdx_cons, hshift, List.map_cons, List.mapIdx_cons,
      String.intercalate_cons_cons]
    · simp
    · simp

theorem endsType_closing (i : Nat) (ts : List Shape) (cs : List Char) : EndsType (closing i ts ++ cs) := by
  cases ts <;> simp [closing, EndsType]

/-- The word that the text of a type begins with. -/
def word : Shape → String
  | untyped => "interface"
  | base label => label
  | chan _ => "chan"
  | composite _ => "struct"

/-- What comes after this word. -/
def rest : Shape → List Char
  | untyped => ['\x7b', '\x7d']
  | base _ => []
  | chan t => ' ' :: t.render.toList
  | composite ts => '\x7b' :: ((fields 0 ts).toList ++ ['\x7d'])

theorem toList_render (t : Shape) : t.render.toList = t.word.toList ++ t.rest := by
  cases t with
  | untyped => simp [render, word, rest]
  | base label => rw [render, word, rest, List.append_nil]
  | chan t => simp [render, word, rest]
  | composite ts => simp [render, word, rest, fields]
  | reference n => exact n.elim

theorem isWord_word (h : t.Worded) : IsWord t.word := by
  cases t with
  | untyped => simp [word, IsWord, isWordChar]
  | base label => exact h label (by simp [labels])
  | chan t => simp [word, IsWord, isWordChar]
  | composite ts => simp [word, IsWord, isWordChar]
  | reference n => exact n.elim

theorem endsWord_rest (t : Shape) (h : EndsType cs) : EndsWord (t.rest ++ cs) := by
  cases t with
  | base label => exact h.endsWord
  | reference n => exact n.elim
  | _ => rw [rest, List.cons_append, endsWord_cons]; decide

theorem word_and_rest (ht : t.Worded) (hu : u.Worded) (hcs : EndsType cs) (hcs' : EndsType cs')
    (h : t.render.toList ++ cs = u.render.toList ++ cs') :
    t.word = u.word ∧ t.rest ++ cs = u.rest ++ cs' := by
  rw [toList_render, toList_render, List.append_assoc, List.append_assoc] at h
  exact (isWord_word ht).append_inj (isWord_word hu) (t.endsWord_rest hcs) (u.endsWord_rest hcs') h

/-- Wherever it stands, the text of a type tells the type and where it ends. -/
def Readable (t : Shape) : Prop :=
  ∀ u cs cs', u.Worded → EndsType cs → EndsType cs' →
    t.render.toList ++ cs = u.render.toList ++ cs' → t = u ∧ cs = cs'

theorem fields_append_inj (h : ∀ t ∈ ts, t.Readable) (hus : ∀ u ∈ us, u.Worded) {i : Nat}
    (heq : (fields i ts).toList ++ ['\x7d'] ++ cs = (fields i us).toList ++ ['\x7d'] ++ cs') :
    ts = us ∧ cs = cs' := by
  have hnil : ∀ i, (fields i []).toList = [] := fun _ => rfl
  -- The numbers go up on both sides at once, so that a field begins in the same way on either.
  induction ts generalizing us i with
  | nil =>
    cases us with
    | nil => simpa [hnil] using heq
    | cons u us =>
      rw [toList_fields_cons, hnil] at heq
      simp at heq
  | cons t ts ih =>
    cases us with
    | nil =>
      rw [toList_fields_cons, hnil] at heq
      simp at heq
    | cons u us =>
      rw [toList_fields_cons, toList_fields_cons] at heq
      simp only [List.append_assoc, List.append_cancel_left_eq] at heq
      obtain ⟨ht, hts⟩ := List.forall_mem_cons.mp h
      obtain ⟨hu, hmore⟩ := List.forall_mem_cons.mp hus
      obtain ⟨rfl, hclosing⟩ := ht u _ _ hu (endsType_closing _ ts cs) (endsType_closing _ us cs') heq
      -- Another field follows on both sides or on none.
      cases ts with
      | nil =>
        cases us with
        | nil => simpa [closing] using hclosing
        | cons v us => simp [closing] at hclosing
      | cons v ts =>
        cases us with
        | nil => simp [closing] at hclosing
        | cons w us =>
          obtain ⟨hrest, rfl⟩ := @ih (w :: us) hts hmore (i + 1) (by simpa [closing] using hclosing)
          exact ⟨by rw [hrest], rfl⟩

theorem eq_base_of_rest {label : String} (hcs' : EndsType cs') (hword : t.word = label)
    (hrest : t.rest ++ cs = cs') : t = base label := by
  subst hrest
  cases t with
  | base label' => exact congrArg base hword
  | reference n => exact n.elim
  | _ => simp [rest, EndsType] at hcs'

theorem readable_untyped : Readable untyped := by
  intro u cs cs' hu hcs hcs' heq
  obtain ⟨hword, hrest⟩ := word_and_rest (by simp [Worded, labels]) hu hcs hcs' heq
  cases u with
  | untyped => simpa [rest] using hrest
  | base label => cases eq_base_of_rest hcs' hword hrest
  | reference n => exact n.elim
  | _ => simp [word] at hword

theorem readable_base {label : String} (h : IsWord label) : Readable (base label) := by
  intro u cs cs' hu hcs hcs' heq
  obtain ⟨hword, hrest⟩ := word_and_rest (by simpa [Worded, labels] using h) hu hcs hcs' heq
  obtain rfl := eq_base_of_rest hcs hword.symm hrest.symm
  exact ⟨rfl, hrest⟩

theorem Readable.chan (h : t.Readable) (ht : t.Worded) : Readable (chan t) := by
  intro u cs cs' hu hcs hcs' heq
  obtain ⟨hword, hrest⟩ := word_and_rest (worded_chan.mpr ht) hu hcs hcs' heq
  cases u with
  | chan u =>
    obtain ⟨rfl, rfl⟩ := h u cs cs' (worded_chan.mp hu) hcs hcs' (List.cons.inj hrest).2
    exact ⟨rfl, rfl⟩
  | base label => cases eq_base_of_rest hcs' hword hrest
  | reference n => exact n.elim
  | _ => simp [word] at hword

theorem readable_composite (h : ∀ t ∈ ts, t.Readable) (hts : ∀ t ∈ ts, t.Worded) :
    Readable (composite ts) := by
  intro u cs cs' hu hcs hcs' heq
  obtain ⟨hword, hrest⟩ := word_and_rest (worded_composite.mpr hts) hu hcs hcs' heq
  cases u with
  | composite us =>
    obtain ⟨rfl, rfl⟩ := fields_append_inj h (worded_composite.mp hu) (List.cons.inj hrest).2
    exact ⟨rfl, rfl⟩
  | base label => cases eq_base_of_rest hcs' hword hrest
  | reference n => exact n.elim
  | _ => simp [word] at hword

theorem Worded.readable (h : t.Worded) : t.Readable := by
  fun_induction render t with
  | case1 => exact readable_untyped
  | case2 label => exact readable_base (h label (by simp [labels]))
  | case3 t ih =>
    rw [worded_chan] at h
    exact (ih h).chan h
  | case4 ts ih =>
    rw [worded_composite] at h
    exact readable_composite (fun t ht => ih t ht (h t ht)) h

/-- Types have the same text only if they are the same. -/
theorem Worded.render_inj (ht : t.Worded) (hu : u.Worded) (h : t.render = u.render) : t = u := by
  have heq : t.render.toList ++ [] = u.render.toList ++ [] := by rw [h]
  exact (ht.readable u [] [] hu (by simp [EndsType]) (by simp [EndsType]) heq).1

end Ty
end PiCalculus
