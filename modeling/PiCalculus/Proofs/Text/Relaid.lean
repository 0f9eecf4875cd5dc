import Mathlib
import PiCalculus.Proofs.Binding.Renaming
import PiCalculus.Proofs.Text.Expected
import PiCalculus.Proofs.Text.RoundTrip

/-! Texts that differ in their layout. The tokens of a text are found again in every other layout that
keeps words apart, and what is read depends on the kinds and the texts of tokens only. -/

namespace PiCalculus

open Grammar

namespace Lexes

variable {cs w : List Char} {ls : List (Leaf fun _ => String)}

theorem layout (h : Lexes cs ls) (hw : ∀ c ∈ w, IsLayout c) : Lexes (w ++ cs) ls := by
  induction w with
  | nil => exact h
  | cons c w ih =>
    obtain ⟨hc, hw⟩ := List.forall_mem_cons.mp hw
    have hstart : ¬ isWordStart c := fun hstart =>
      hc.not_isWordChar (isWordChar_of_isWordStart hstart)
    intro here
    rw [List.cons_append, scan, if_neg hstart]
    split
    · exact ih hw _
    · next hn =>
      rw [if_pos ((isLayout_iff.mp hc).resolve_left hn)]
      exact ih hw _

/-- A lexeme is found before anything that does not go on with it. -/
theorem lexeme {k : TokenKind} {raw : List Char} (h : Lexes cs ls) (hraw : IsLexeme k raw)
    (hcs : BeginsWord raw → EndsWord cs) : Lexes (raw ++ cs) (⟨k, String.ofList raw⟩ :: ls) := by
  cases hraw with
  | word start more => exact h.word start more rfl (hcs ⟨_, rfl, start⟩)
  | @single c start layout =>
    intro here
    rw [isLayout_iff, not_or] at layout
    rw [List.singleton_append, scan, if_neg start, if_neg layout.1, if_neg layout.2, List.map_cons, h]
    rfl

end Lexes

/-- Whether the text behind a token keeps it apart from the next one, which could go on with it if it
is a word. -/
def KeepsApart (p q : Token × List Char) : Prop :=
  BeginsWord p.1.raw.toList → ¬ EndsWord q.1.raw.toList → p.2 ≠ []

section decide

/-! What is asked of the characters of a text is decided along the text and not over all characters. -/

instance : DecidablePred IsLayout := fun c =>
  inferInstanceAs (Decidable (c = ' ' ∨ c = '\t' ∨ c = '\r' ∨ c = '\n'))

instance decidableForallIsLayout (w : List Char) : Decidable (∀ c ∈ w, IsLayout c) :=
  List.decidableBAll _ w

instance : DecidablePred BeginsWord := fun cs =>
  decidable_of_iff (cs.head?.any isWordStart) (by simp [BeginsWord, Option.any_eq_true])

instance : DecidablePred EndsWord := fun cs =>
  decidable_of_iff (cs.head?.all fun c => !isWordChar c) (by simp [EndsWord, Option.all_eq_true])

instance : DecidableRel KeepsApart := fun p q =>
  inferInstanceAs (Decidable (BeginsWord p.1.raw.toList → ¬ EndsWord q.1.raw.toList → p.2 ≠ []))

end decide

theorem EndsWord.append {w cs : List Char} (hne : w ≠ []) (h : EndsWord w) :
    EndsWord (w ++ cs) := by
  obtain ⟨c, w, rfl⟩ := List.exists_cons_of_ne_nil hne
  rw [List.cons_append, endsWord_cons]
  exact endsWord_cons.mp h

theorem endsWord_laidOut {p : Token × List Char} {pieces : List (Token × List Char)}
    (hlexemes : ∀ q ∈ pieces, IsLexeme q.1.kind q.1.raw.toList) (hgap : ∀ c ∈ p.2, IsLayout c)
    (apart : (p :: pieces).IsChain KeepsApart) (hword : BeginsWord p.1.raw.toList) :
    EndsWord (laidOut p.2 pieces) := by
  by_cases hempty : p.2 = []
  · cases pieces with
    | nil => simp [laidOut, hempty, EndsWord]
    | cons q pieces =>
      have hends : EndsWord q.1.raw.toList := by
        by_contra hnot
        exact (List.isChain_cons_cons.mp apart).1 hword hnot hempty
      have hne := (hlexemes q List.mem_cons_self).ne_nil
      rw [hempty, laidOut_cons, List.nil_append]
      exact hends.append hne
  · have hends : EndsWord p.2 := fun c hc => (hgap c (List.mem_of_mem_head? hc)).not_isWordChar
    exact hends.append hempty

theorem lexes_laidOut {first : List Char} {pieces : List (Token × List Char)}
    (hlexemes : ∀ p ∈ pieces, IsLexeme p.1.kind p.1.raw.toList) (hfirst : ∀ c ∈ first, IsLayout c)
    (hgaps : ∀ p ∈ pieces, ∀ c ∈ p.2, IsLayout c) (apart : pieces.IsChain KeepsApart) :
    Lexes (laidOut first pieces) (pieces.map fun p => lexeme p.1) := by
  induction pieces generalizing first with
  | nil =>
    rw [laidOut, List.flatMap_nil]
    exact Lexes.nil.layout hfirst
  | cons p pieces ih =>
    obtain ⟨hlexeme, hlexemes⟩ := List.forall_mem_cons.mp hlexemes
    obtain ⟨hgap, hgaps⟩ := List.forall_mem_cons.mp hgaps
    have hrest := ih hlexemes hgap hgaps apart.of_cons
    have htoken := hrest.lexeme hlexeme fun hword => endsWord_laidOut hlexemes hgap apart hword
    rw [String.ofList_toList] at htoken
    rw [laidOut_cons, List.append_assoc]
    exact htoken.layout hfirst

theorem isLexeme_of_mem_tokens {source : String} {t : Token} (ht : t ∈ tokens source) :
    IsLexeme t.kind t.raw.toList := by
  obtain ⟨before, behind, -, hstands⟩ := exists_stands_of_mem_tokens ht
  exact hstands.lexeme

theorem map_lexeme_tokens {source : String} {first : List Char} {pieces : List (Token × List Char)}
    (htokens : pieces.map Prod.fst = tokens source) (hfirst : ∀ c ∈ first, IsLayout c)
    (hgaps : ∀ p ∈ pieces, ∀ c ∈ p.2, IsLayout c) (apart : pieces.IsChain KeepsApart) :
    (tokens (String.ofList (laidOut first pieces))).map lexeme = (tokens source).map lexeme := by
  have hlexemes : ∀ p ∈ pieces, IsLexeme p.1.kind p.1.raw.toList := fun p hp =>
    isLexeme_of_mem_tokens (htokens ▸ List.mem_map_of_mem hp)
  have h := lexes_laidOut hlexemes hfirst hgaps apart .origin
  rw [tokens, String.toList_ofList, h, ← htokens, List.map_map]
  rfl

namespace Grammar

theorem exists_map_word_eq_of_lexeme {ts : List Token} (c : Composition Terminal)
    (h : ts.map lexeme = c.tokens.map lexeme) :
    ∃ c' : Composition Terminal, c'.tokens = ts ∧ c'.map word = c.map word := by
  refine exists_map_word_eq (c.map word) (h.trans ?_)
  rw [Composition.leaves_map, Composition.tokens, List.map_map]
  refine List.map_congr_left fun l _ => ?_
  obtain ⟨k, t, rfl⟩ := l
  rfl

end Grammar

/-- What is known of a name apart from its place. -/
def Entry.unplaced (e : Entry) : Entry := { e with span := none }

/-- The entry of a name that is read with these words. -/
def Entry.ofWords (label : String) : Option String → Entry
  | none => .ordinary label
  | some hint => .hinted label hint

namespace Program

theorem map_unplaced_load (c : Grammar.Composition Grammar.Terminal) :
    let p := Store.empty.load (c.denote Grammar.occurrence)
    p.1.map (fun n => (p.2.get? n).map Entry.unplaced) =
      (c.map Grammar.word).denote fun label hint => some (Entry.ofWords label hint) :=
  map_load c (Option.map Entry.unplaced) (fun label hint => some (Entry.ofWords label hint))
    fun _ hint => by cases hint <;> rfl

/-- What is read depends on the words only. -/
theorem load_eq_of_map_word_eq {c c' : Grammar.Composition Grammar.Terminal}
    (h : c'.map Grammar.word = c.map Grammar.word) :
    let p := Store.empty.load (c.denote Grammar.occurrence)
    let q := Store.empty.load (c'.denote Grammar.occurrence)
    q.1 = p.1 ∧ ∀ n, (q.2.get? n).map Entry.unplaced = (p.2.get? n).map Entry.unplaced := by
  intro p q
  have hshape := (map_unplaced_load c').trans ((congrArg _ h).trans (map_unplaced_load c).symm)
  have hocc : q.1.occurrences = p.1.occurrences := by
    have hids : q.1.occurrences.map (·.id) = p.1.occurrences.map (·.id) := by
      rw [(Store.empty.load_grows _).ids, (Store.empty.load_grows _).ids,
        Process.length_occurrences_eq hshape]
    refine List.map_injective_iff.mpr (fun n m hid => ?_) hids
    cases n
    cases m
    exact congrArg Name.mk hid
  have hprocess : q.1 = p.1 := by
    rw [← Process.map_eq_of_occurrences (f := id) hshape (by rw [hocc, List.map_id]), Process.map_id]
  refine ⟨hprocess, fun n => ?_⟩
  by_cases hn : n ∈ p.1.occurrences
  · have heach := congrArg Process.occurrences hshape
    rw [Process.occurrences_map, Process.occurrences_map, hprocess] at heach
    exact List.map_inj_left.mp heach n hn
  · -- A name that does not occur was never loaded.
    have hnone : ∀ r : Process Occurrence, n ∉ (Store.empty.load r).1.occurrences →
        (Store.empty.load r).2.get? n = none := fun r hr =>
      Option.eq_none_iff_forall_ne_some.mpr fun e he =>
        hr (Store.mem_occurrences_of_get?_load r he)
    rw [hnone _ hn, hnone _ (hocc ▸ hn)]

/-- Errors over tokens of the same kinds stand at the same token and expect the same. -/
theorem parse_error_eq_of_kinds {source source' : String} {e f : SyntaxError}
    (hkinds : (tokens source').map Token.kind = (tokens source).map Token.kind)
    (he : Program.parse source = .error e) (hf : Program.parse source' = .error f) :
    f.expectation = e.expectation ∧ ∃ k, e.IsAt (tokens source) k ∧ f.IsAt (tokens source') k := by
  obtain ⟨m, hm, hat, st, hrun, hexpected⟩ := exists_isAt he
  obtain ⟨m', hm', hat', st', hrun', hexpected'⟩ := exists_isAt hf
  rw [hkinds] at hm' hat' hrun'
  obtain rfl : m' = m := hm'.unique hm
  obtain rfl : st' = st := Option.some.inj (hrun'.symm.trans hrun)
  exact ⟨Option.some.inj (hexpected'.symm.trans hexpected), _, hat, hat'⟩

theorem exists_parse_of_lexeme {source source' : String} {p : Program}
    (hlexemes : (tokens source').map lexeme = (tokens source).map lexeme)
    (hp : Program.parse source = .ok p) :
    ∃ q, Program.parse source' = .ok q ∧ q.process = p.process ∧
      ∀ n, (q.store.get? n).map Entry.unplaced = (p.store.get? n).map Entry.unplaced := by
  obtain ⟨c, hc, rfl⟩ := parse_eq_ok_iff.mp hp
  rw [← hc] at hlexemes
  obtain ⟨c', hc', hwords⟩ := Grammar.exists_map_word_eq_of_lexeme c hlexemes
  obtain ⟨hprocess, hentries⟩ := load_eq_of_map_word_eq hwords
  exact ⟨_, parse_eq_ok_iff.mpr ⟨c', hc', rfl⟩, hprocess, hentries⟩

theorem parse_relaid {source : String} {first : List Char} {pieces : List (Token × List Char)}
    (htokens : pieces.map Prod.fst = tokens source) (hfirst : ∀ c ∈ first, IsLayout c)
    (hgaps : ∀ p ∈ pieces, ∀ c ∈ p.2, IsLayout c) (apart : pieces.IsChain KeepsApart) :
    let relaid := String.ofList (laidOut first pieces)
    (tokens relaid).map (fun t => (t.kind, t.raw)) =
        (tokens source).map (fun t => (t.kind, t.raw)) ∧
      match Program.parse source, Program.parse relaid with
      | .ok p, .ok q => q.process = p.process ∧
          ∀ n, (q.store.get? n).map Entry.unplaced = (p.store.get? n).map Entry.unplaced
      | .error e, .error f => f.expectation = e.expectation ∧
          ∃ k, e.IsAt (tokens source) k ∧ f.IsAt (tokens relaid) k
      | _, _ => False := by
  intro relaid
  have hlexemes := map_lexeme_tokens htokens hfirst hgaps apart
  have hpairs := congrArg (List.map fun l : Leaf fun _ => String => (l.1, l.2)) hlexemes
  have hkinds := congrArg (List.map Sigma.fst) hlexemes
  rw [List.map_map, List.map_map] at hpairs hkinds
  refine ⟨hpairs, ?_⟩
  cases hp : Program.parse source with
  | ok p =>
    obtain ⟨q, hq, hsame⟩ := exists_parse_of_lexeme hlexemes hp
    rw [show Program.parse relaid = .ok q from hq]
    exact hsame
  | error e =>
    cases hq : Program.parse relaid with
    | ok q =>
      obtain ⟨p, hp', -⟩ := exists_parse_of_lexeme hlexemes.symm hq
      rw [hp] at hp'
      cases hp'
    | error f => exact parse_error_eq_of_kinds hkinds hp hq

/-- The keyword and the word before the stray sign are all that has to be kept apart. -/
theorem parse_relaid_closely :
    (∃ p q, Program.parse "(new a:T) (a<b> | !0)" = .ok p ∧
      Program.parse "(new\ta:T)(a<b>|\r\n!0)" = .ok q ∧ q.process = p.process ∧
      ∀ n, (q.store.get? n).map Entry.unplaced = (p.store.get? n).map Entry.unplaced) ∧
    ∃ e f, Program.parse "a<b - c" = .error e ∧ Program.parse "\ra<b\n-c" = .error f ∧
      f.expectation = e.expectation ∧
      ∃ k, e.IsAt (tokens "a<b - c") k ∧ f.IsAt (tokens "\ra<b\n-c") k := by
  constructor
  · let pieces := (tokens "(new a:T) (a<b> | !0)").zip
      [[], ['\t'], [], [], [], [], [], [], [], [], [], ['\r', '\n'], [], [], []]
    have htokens : pieces.map Prod.fst = tokens "(new a:T) (a<b> | !0)" :=
      List.map_fst_zip (by decide +kernel)
    have hfirst : ∀ c ∈ ([] : List Char), IsLayout c := by simp
    have hgaps : ∀ p ∈ pieces, ∀ c ∈ p.2, IsLayout c := by decide +kernel
    have h := parse_relaid htokens hfirst hgaps (by decide +kernel)
    rw [show laidOut [] pieces = "(new\ta:T)(a<b>|\r\n!0)".toList by decide +kernel,
      String.ofList_toList] at h
    obtain ⟨p, hp⟩ : ∃ p, Program.parse "(new a:T) (a<b> | !0)" = .ok p ∧ True := by decide +kernel
    obtain ⟨q, hq⟩ : ∃ q, Program.parse "(new\ta:T)(a<b>|\r\n!0)" = .ok q ∧ True := by
      decide +kernel
    have hsame := h.2
    rw [hp.1, hq.1] at hsame
    exact ⟨p, q, hp.1, hq.1, hsame⟩
  · let pieces := (tokens "a<b - c").zip [[], [], ['\n'], [], []]
    have htokens : pieces.map Prod.fst = tokens "a<b - c" := List.map_fst_zip (by decide +kernel)
    have hfirst : ∀ c ∈ ['\r'], IsLayout c := by decide +kernel
    have hgaps : ∀ p ∈ pieces, ∀ c ∈ p.2, IsLayout c := by decide +kernel
    have h := parse_relaid htokens hfirst hgaps (by decide +kernel)
    rw [show laidOut ['\r'] pieces = "\ra<b\n-c".toList by decide +kernel,
      String.ofList_toList] at h
    obtain ⟨e, he⟩ : ∃ e, Program.parse "a<b - c" = .error e ∧ True := by decide +kernel
    obtain ⟨f, hf⟩ : ∃ f, Program.parse "\ra<b\n-c" = .error f ∧ True := by decide +kernel
    have hsame := h.2
    rw [he.1, hf.1] at hsame
    exact ⟨e, f, he.1, hf.1, hsame⟩

end Program

end PiCalculus
