import Mathlib
import PiCalculus.Proofs.Text.Grammar

/-! The tokens of a text without their places. Where a text begins makes no difference to them, and a
word ends where a character follows that no word goes on with. -/

namespace PiCalculus

/-- `[A-Za-z][A-Za-z0-9_-]*`, but not `new`. -/
def IsIdentifier (label : String) : Prop :=
  ∃ c cs, label.toList = c :: cs ∧ c.isAlpha ∧ (∀ d ∈ cs, isWordChar d) ∧ label ≠ "new"

theorem isDigit_of_isAlpha {c : Char} (h : c.isAlpha) : c.isDigit = false := by
  simp only [Char.isAlpha, Char.isUpper, Char.isLower, Char.isDigit, Bool.or_eq_true,
    Bool.and_eq_true, decide_eq_true_eq, Bool.and_eq_false_iff, decide_eq_false_iff_not,
    UInt32.le_iff_toNat_le] at h ⊢
  simp at h ⊢
  omega

theorem wordKind_eq_identifier_iff {c : Char} {w : List Char} :
    wordKind (c :: w) = .identifier ↔ c.isDigit = false ∧ c :: w ≠ ['n', 'e', 'w'] := by
  unfold wordKind
  split
  · next h =>
    cases h
    simp [show '0'.isDigit = true by decide]
  · next h =>
    cases h
    simp
  · next d w' hzero hnew h =>
    cases h
    cases c.isDigit
    · simpa using hnew
    · simp
  · next h => cases h

open Grammar

/-- What remains of a token without its place. -/
def lexeme (t : Token) : Leaf fun _ => String := ⟨t.kind, t.raw⟩

/-- Whether a text has these tokens wherever it begins. -/
def Lexes (cs : List Char) (ls : List (Leaf fun _ => String)) : Prop :=
  ∀ here, (scan here cs).map lexeme = ls

/-- Whether a word ends before these characters. -/
def EndsWord (cs : List Char) : Prop := ∀ c ∈ cs.head?, ¬ isWordChar c

theorem endsWord_cons {c : Char} {cs : List Char} : EndsWord (c :: cs) ↔ ¬ isWordChar c := by
  simp [EndsWord]

section word

variable {w cs : List Char}

theorem takeWhile_append_of_endsWord (hw : ∀ d ∈ w, isWordChar d) (hcs : EndsWord cs) :
    (w ++ cs).takeWhile isWordChar = w := by
  rw [List.takeWhile_append_of_pos hw]
  cases cs with
  | nil => simp
  | cons d cs => simp [endsWord_cons.mp hcs]

theorem dropWhile_append_of_endsWord (hw : ∀ d ∈ w, isWordChar d) (hcs : EndsWord cs) :
    (w ++ cs).dropWhile isWordChar = cs := by
  rw [List.dropWhile_append_of_pos hw]
  cases cs with
  | nil => simp
  | cons d cs => simp [endsWord_cons.mp hcs]

end word

namespace Lexes

variable {cs : List Char} {ls : List (Leaf fun _ => String)}

theorem nil : Lexes [] [] := fun _ => by simp [scan]

theorem blank (h : Lexes cs ls) : Lexes (' ' :: cs) ls := by
  intro here
  have hw : isWordStart ' ' = false := by decide
  rw [scan, hw, if_neg Bool.false_ne_true, if_neg (by decide), if_pos (by decide)]
  exact h _

theorem symbol {c : Char} {k : TokenKind} (h : Lexes cs ls) (hc : symbolKind c = k)
    (hk : k ≠ .unknown) : Lexes (c :: cs) (⟨k, String.singleton c⟩ :: ls) := by
  intro here
  have plain : isWordStart c = false ∧ c ≠ '\n' ∧ isBlank c = false := by
    unfold symbolKind at hc
    split at hc <;> first | decide | exact absurd hc.symm hk
  obtain ⟨hw, hn, hb⟩ := plain
  rw [scan, hw, if_neg Bool.false_ne_true, if_neg hn, hb, if_neg Bool.false_ne_true, List.map_cons,
    h, ← hc]
  rfl

theorem word {w : List Char} {c : Char} {k : TokenKind} (h : Lexes cs ls) (hc : isWordStart c)
    (hw : ∀ d ∈ w, isWordChar d) (hk : wordKind (c :: w) = k) (hcs : EndsWord cs) :
    Lexes (c :: w ++ cs) (⟨k, String.ofList (c :: w)⟩ :: ls) := by
  intro here
  rw [List.cons_append, scan, if_pos hc]
  simp only [takeWhile_append_of_endsWord hw hcs, dropWhile_append_of_endsWord hw hcs, List.map_cons]
  rw [h, ← hk]
  rfl

theorem identifier {l : String} (h : Lexes cs ls) (hl : IsIdentifier l) (hcs : EndsWord cs) :
    Lexes (l.toList ++ cs) (⟨.identifier, l⟩ :: ls) := by
  obtain ⟨c, w, hlist, hc, hw, hnew⟩ := hl
  have hlabel : String.ofList (c :: w) = l := by rw [← hlist, String.ofList_toList]
  have hk : wordKind (c :: w) = .identifier := by
    refine wordKind_eq_identifier_iff.mpr ⟨isDigit_of_isAlpha hc, fun h => hnew ?_⟩
    rw [← hlabel, h]
  rw [hlist, ← hlabel]
  exact h.word (by simp [isWordStart, Char.isAlphanum, hc]) hw hk hcs

end Lexes

theorem isIdentifier_of_mem_scan {here : Point} {cs : List Char} {t : Token}
    (ht : t ∈ scan here cs) (hk : t.kind = .identifier) : IsIdentifier t.raw := by
  fun_induction scan here cs with
  | case1 here => cases ht
  | case2 here c cs hc word ih =>
    rcases List.mem_cons.mp ht with rfl | ht
    · obtain ⟨hd, hnew⟩ := wordKind_eq_identifier_iff.mp hk
      refine ⟨c, cs.takeWhile isWordChar, String.toList_ofList .., ?_,
        fun d hd => List.mem_takeWhile_imp hd, fun h => hnew ?_⟩
      · simpa [isWordStart, Char.isAlphanum, hd] using hc
      · have hlist := congrArg String.toList h
        rwa [Token.ofChars, String.toList_ofList] at hlist
    · exact ih ht
  | case3 here cs hc ih => exact ih ht
  | case4 here c cs hc hn hb ih => exact ih ht
  | case5 here c cs hc hn hb ih =>
    rcases List.mem_cons.mp ht with rfl | ht
    · have hsymbol : ∀ c, symbolKind c ≠ .identifier := fun c => by
        unfold symbolKind
        split <;> simp
      exact absurd hk (hsymbol c)
    · exact ih ht

end PiCalculus
