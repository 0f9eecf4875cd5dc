import Mathlib
import PiCalculus.Proofs.Text.Lexing

/-! Where the tokens of a text stand. A text is its tokens in their order with layout around them, and
each token is as long as it can be and knows its place. -/

namespace PiCalculus

/-- What separates tokens and belongs to none. -/
def IsLayout (c : Char) : Prop := c = ' ' ∨ c = '\t' ∨ c = '\r' ∨ c = '\n'

theorem isLayout_iff {c : Char} : IsLayout c ↔ c = '\n' ∨ isBlank c := by
  simp only [IsLayout, isBlank, Bool.or_eq_true, beq_iff_eq]
  tauto

theorem IsLayout.not_isWordChar {c : Char} (h : IsLayout c) : ¬ isWordChar c := by
  rcases h with rfl | rfl | rfl | rfl <;> decide

theorem isWordChar_of_isWordStart {c : Char} (h : isWordStart c) : isWordChar c := by
  rw [isWordStart] at h
  simp [isWordChar, h]

section bytes

theorem byteLength_append (cs ds : List Char) :
    byteLength (cs ++ ds) = byteLength cs + byteLength ds := by
  induction cs with
  | nil => simp [byteLength]
  | cons c cs ih => rw [List.cons_append, byteLength, byteLength, ih, Nat.add_assoc]

theorem byteLength_toList (s : String) : byteLength s.toList = s.utf8ByteSize := by
  have hlist : ∀ cs : List Char, byteLength cs = String.utf8Len cs := by
    intro cs
    induction cs with
    | nil => rfl
    | cons c cs ih => rw [byteLength, ih, String.utf8Len_cons, Nat.add_comm]
  rw [hlist, ← String.utf8ByteSize_ofList, String.ofList_toList]

theorem byteLength_pos {cs : List Char} (h : cs ≠ []) : 0 < byteLength cs := by
  cases cs with
  | nil => exact absurd rfl h
  | cons c cs => exact Nat.add_pos_left c.utf8Size_pos _

/-- So many bytes as the first characters take are cut off between characters. -/
theorem takeBytes?_append (before rest : List Char) :
    takeBytes? (byteLength before) (before ++ rest) = some before := by
  induction before with
  | nil => simp [byteLength, takeBytes?]
  | cons c before ih =>
    have hpos : c.utf8Size + byteLength before ≠ 0 := (byteLength_pos (List.cons_ne_nil c _)).ne'
    rw [byteLength, List.cons_append, takeBytes?, if_pos (Nat.le_add_right ..),
      Nat.add_sub_cancel_left, ih, Option.map_some]
    exact hpos

end bytes

namespace Point

/-- The position behind the beginning of a text. -/
def behind (before : List Char) : Point :=
  ⟨byteLength before, before.count '\n', byteLength (before.rtakeWhile (· ≠ '\n'))⟩

theorem behind_newline (before : List Char) :
    behind (before ++ ['\n']) = (behind before).nextLine := by
  have hline : (before ++ ['\n']).rtakeWhile (· ≠ '\n') = [] :=
    List.rtakeWhile_concat_neg _ _ _ (by simp)
  rw [behind, hline, byteLength_append, List.count_append]
  rfl

theorem behind_append (before : List Char) {more : List Char} (h : '\n' ∉ more) :
    behind (before ++ more) = (behind before).advance more := by
  have hmore : ∀ c ∈ more.reverse, decide (c ≠ '\n') := by
    intro c hc
    exact decide_eq_true fun heq => h (heq ▸ List.mem_reverse.mp hc)
  have hline : (before ++ more).rtakeWhile (· ≠ '\n') =
      before.rtakeWhile (· ≠ '\n') ++ more := by
    rw [List.rtakeWhile, List.rtakeWhile, List.reverse_append, List.takeWhile_append_of_pos hmore,
      List.reverse_append, List.reverse_reverse]
  rw [behind, hline, byteLength_append, byteLength_append, List.count_append,
    List.count_eq_zero.mpr h]
  rfl

end Point

/-- The kinds that texts have as tokens. -/
inductive IsLexeme : TokenKind → List Char → Prop
  | word {c : Char} {w : List Char} (start : isWordStart c) (more : ∀ d ∈ w, isWordChar d) :
      IsLexeme (wordKind (c :: w)) (c :: w)
  | single {c : Char} (start : ¬ isWordStart c) (layout : ¬ IsLayout c) :
      IsLexeme (symbolKind c) [c]

/-- Whether a token of this text is a word. -/
def BeginsWord (cs : List Char) : Prop := ∃ c ∈ cs.head?, isWordStart c

namespace IsLexeme

variable {k : TokenKind} {raw : List Char}

theorem ne_nil (h : IsLexeme k raw) : raw ≠ [] := by
  cases h <;> exact List.cons_ne_nil _ _

theorem newline_notMem (h : IsLexeme k raw) : '\n' ∉ raw := by
  cases h with
  | @word c w start more =>
    intro hmem
    rcases List.mem_cons.mp hmem with rfl | hmem
    · revert start
      decide
    · have := more _ hmem
      revert this
      decide
  | single start layout =>
    rintro hmem
    obtain rfl := List.mem_singleton.mp hmem
    exact layout (.inr (.inr (.inr rfl)))

end IsLexeme

/-- A text from what is before its first token and from its tokens with what is behind each. -/
def laidOut (first : List Char) (pieces : List (Token × List Char)) : List Char :=
  first ++ pieces.flatMap fun p => p.1.raw.toList ++ p.2

theorem laidOut_cons (first : List Char) (t : Token) (gap : List Char)
    (pieces : List (Token × List Char)) :
    laidOut first ((t, gap) :: pieces) = first ++ t.raw.toList ++ laidOut gap pieces := by
  simp [laidOut]

theorem laidOut_append (first : List Char) (l r : List (Token × List Char)) :
    laidOut first (l ++ r) = laidOut first l ++ laidOut [] r := by
  simp [laidOut]

/-- How a token stands between what is before it in a text and what is behind it. -/
structure Token.Stands (t : Token) (before behind : List Char) : Prop where
  lexeme : IsLexeme t.kind t.raw.toList
  longest : BeginsWord t.raw.toList → EndsWord behind
  start : t.span.start = .behind before
  stop : t.span.stop = t.span.start.advance t.raw.toList

/-- How tokens are laid out in a text that goes on behind another one. -/
structure LaysOut (first : List Char) (pieces : List (Token × List Char)) (before cs : List Char)
    (ts : List Token) : Prop where
  tokens : pieces.map Prod.fst = ts
  text : laidOut first pieces = cs
  layout : ∀ c ∈ first, IsLayout c
  gaps : ∀ p ∈ pieces, ∀ c ∈ p.2, IsLayout c
  stands : ∀ l t gap r, pieces = l ++ (t, gap) :: r →
    t.Stands (before ++ laidOut first l) (laidOut gap r)

namespace LaysOut

variable {first before cs : List Char} {pieces : List (Token × List Char)} {ts : List Token}

theorem nil (before : List Char) : LaysOut [] [] before [] [] :=
  ⟨rfl, rfl, by simp, by simp, by simp⟩

theorem skip {c : Char} (h : LaysOut first pieces (before ++ [c]) cs ts) (hc : IsLayout c) :
    LaysOut (c :: first) pieces before (c :: cs) ts := by
  refine ⟨h.tokens, ?_, List.forall_mem_cons.mpr ⟨hc, h.layout⟩, h.gaps, fun l t gap r hsplit => ?_⟩
  · rw [← h.text]
    rfl
  · have hstands := h.stands l t gap r hsplit
    rwa [List.append_assoc] at hstands

theorem cons {t : Token} (h : LaysOut first pieces (before ++ t.raw.toList) cs ts)
    (ht : t.Stands before cs) :
    LaysOut [] ((t, first) :: pieces) before (t.raw.toList ++ cs) (t :: ts) := by
  refine ⟨?_, ?_, by simp, List.forall_mem_cons.mpr ⟨h.layout, h.gaps⟩, fun l u gap r hsplit => ?_⟩
  · rw [List.map_cons, h.tokens]
  · rw [laidOut_cons, h.text, List.nil_append]
  · rcases List.cons_eq_append_iff.mp hsplit with ⟨rfl, hhead⟩ | ⟨l, rfl, hrest⟩
    · cases hhead
      rw [h.text]
      simpa [laidOut] using ht
    · rw [laidOut_cons, List.nil_append, ← List.append_assoc]
      exact h.stands l u gap r hrest

theorem tail {t : Token} {gap : List Char} (h : LaysOut first ((t, gap) :: pieces) before cs ts) :
    t.Stands (before ++ first) (laidOut gap pieces) ∧
      LaysOut gap pieces (before ++ first ++ t.raw.toList) (laidOut gap pieces)
        (pieces.map Prod.fst) := by
  obtain ⟨hgap, hgaps⟩ := List.forall_mem_cons.mp h.gaps
  refine ⟨?_, rfl, rfl, hgap, hgaps, fun l u gap' r hsplit => ?_⟩
  · simpa [laidOut] using h.stands [] t gap pieces rfl
  · have hstands := h.stands ((t, gap) :: l) u gap' r (congrArg _ hsplit)
    rwa [laidOut_cons, ← List.append_assoc, ← List.append_assoc] at hstands

theorem exists_split (h : LaysOut first pieces before cs ts) {t : Token} (ht : t ∈ ts) :
    ∃ l gap r, pieces = l ++ (t, gap) :: r := by
  rw [← h.tokens] at ht
  obtain ⟨⟨t, gap⟩, hpiece, rfl⟩ := List.mem_map.mp ht
  obtain ⟨l, r, hsplit⟩ := List.append_of_mem hpiece
  exact ⟨l, gap, r, hsplit⟩

theorem le_start (h : LaysOut first pieces before cs ts) {t : Token} (ht : t ∈ ts) :
    byteLength before ≤ t.span.start.offset := by
  obtain ⟨l, gap, r, hsplit⟩ := h.exists_split ht
  have hstart := congrArg Point.offset (h.stands l t gap r hsplit).start
  rw [hstart, Point.behind, byteLength_append]
  exact Nat.le_add_right ..

theorem start_lt_stop (h : LaysOut first pieces before cs ts) {t : Token} (ht : t ∈ ts) :
    t.span.start.offset < t.span.stop.offset := by
  obtain ⟨l, gap, r, hsplit⟩ := h.exists_split ht
  have hstands := h.stands l t gap r hsplit
  rw [hstands.stop]
  exact Nat.lt_add_of_pos_right (byteLength_pos hstands.lexeme.ne_nil)

/-- No token reaches into one that comes later. -/
theorem pairwise (h : LaysOut first pieces before cs ts) :
    ts.Pairwise fun t u => t.span.stop.offset ≤ u.span.start.offset := by
  rw [← h.tokens]
  induction pieces generalizing first before cs ts with
  | nil => exact .nil
  | cons piece pieces ih =>
    obtain ⟨t, gap⟩ := piece
    obtain ⟨hstands, htail⟩ := h.tail
    rw [List.map_cons]
    refine .cons (fun u hu => ?_) (ih htail)
    have hstop : t.span.stop.offset = byteLength (before ++ first ++ t.raw.toList) := by
      rw [hstands.stop, hstands.start, byteLength_append]
      rfl
    rw [hstop]
    exact htail.le_start hu

end LaysOut

theorem Token.stands_ofChars {k : TokenKind} {raw before behind : List Char}
    (h : IsLexeme k raw) (longest : BeginsWord raw → EndsWord behind) :
    (Token.ofChars k (.behind before) raw).Stands before behind := by
  refine ⟨?_, fun hword => longest ?_, rfl, ?_⟩
  · rwa [ofChars, String.toList_ofList]
  · rwa [ofChars, String.toList_ofList] at hword
  · rw [ofChars, String.toList_ofList]

theorem LaysOut.token {k : TokenKind} {raw first before cs : List Char}
    {pieces : List (Token × List Char)} {ts : List Token} (h : IsLexeme k raw)
    (longest : BeginsWord raw → EndsWord cs) (rest : LaysOut first pieces (before ++ raw) cs ts) :
    LaysOut [] ((.ofChars k (.behind before) raw, first) :: pieces) before (raw ++ cs)
      (.ofChars k (.behind before) raw :: ts) := by
  have hraw : (Token.ofChars k (.behind before) raw).raw.toList = raw := String.toList_ofList
  have hlays := LaysOut.cons (hraw.symm ▸ rest) (Token.stands_ofChars h longest)
  rwa [hraw] at hlays

theorem endsWord_dropWhile (cs : List Char) : EndsWord (cs.dropWhile isWordChar) := by
  intro c hc
  have hne : cs.dropWhile isWordChar ≠ [] := by
    rintro heq
    rw [heq] at hc
    cases hc
  have hhead := List.head_dropWhile_not isWordChar hne
  rw [List.head?_eq_some_head hne, Option.mem_some_iff] at hc
  rw [← hc, hhead]
  exact Bool.false_ne_true

/-- Scanning lays the text out. The position at which it goes on is that behind what was scanned. -/
theorem scan_laysOut (before cs : List Char) :
    ∃ first pieces, LaysOut first pieces before cs (scan (.behind before) cs) := by
  -- The position says nothing but how much has been scanned, so the induction is on the scan alone.
  generalize hhere : Point.behind before = here
  fun_induction scan here cs generalizing before with
  | case1 here => exact ⟨[], [], .nil before⟩
  | case2 here c cs hc word ih =>
    subst hhere
    have hlexeme : IsLexeme (wordKind word) word := .word hc fun d hd => List.mem_takeWhile_imp hd
    have hnext := Point.behind_append before hlexeme.newline_notMem
    obtain ⟨first, pieces, h⟩ := ih (before ++ word) hnext
    have hlays := LaysOut.token hlexeme (fun _ => endsWord_dropWhile cs) h
    rw [List.cons_append, List.takeWhile_append_dropWhile] at hlays
    exact ⟨_, _, hlays⟩
  | case3 here cs hc ih =>
    subst hhere
    obtain ⟨first, pieces, h⟩ := ih (before ++ ['\n']) (Point.behind_newline before)
    exact ⟨_, pieces, h.skip (isLayout_iff.mpr (.inl rfl))⟩
  | case4 here c cs hc hn hb ih =>
    subst hhere
    have hnext : Point.behind (before ++ [c]) = (Point.behind before).advance [c] :=
      Point.behind_append before (by simpa using Ne.symm hn)
    obtain ⟨first, pieces, h⟩ := ih (before ++ [c]) hnext
    exact ⟨_, pieces, h.skip (isLayout_iff.mpr (.inr hb))⟩
  | case5 here c cs hc hn hb ih =>
    subst hhere
    have hlexeme : IsLexeme (symbolKind c) [c] := .single hc (by simp [isLayout_iff, hn, hb])
    have hnext := Point.behind_append before hlexeme.newline_notMem
    obtain ⟨first, pieces, h⟩ := ih (before ++ [c]) hnext
    have hsymbol : ¬ BeginsWord [c] := by simpa [BeginsWord] using hc
    exact ⟨_, _, .token hlexeme (fun hword => absurd hword hsymbol) h⟩

theorem Token.Stands.stop_eq {t : Token} {before behind : List Char} (h : t.Stands before behind) :
    t.span.stop = .behind (before ++ t.raw.toList) := by
  rw [h.stop, h.start, Point.behind_append _ h.lexeme.newline_notMem]

theorem exists_stands_of_mem_tokens {source : String} {t : Token} (ht : t ∈ tokens source) :
    ∃ before behind, before ++ (t.raw.toList ++ behind) = source.toList ∧ t.Stands before behind := by
  obtain ⟨first, pieces, h⟩ := scan_laysOut [] source.toList
  obtain ⟨l, gap, r, hsplit⟩ := h.exists_split ht
  refine ⟨laidOut first l, laidOut gap r, ?_, h.stands l t gap r hsplit⟩
  rw [← h.text, hsplit, laidOut_append, laidOut_cons, List.nil_append]

theorem isWordChar_iff {c : Char} : isWordChar c ↔ c.isAlphanum ∨ c = '_' ∨ c = '-' := by
  simp [isWordChar, or_assoc]

theorem wordKind_eq {s : String} {c : Char} {w : List Char} (h : s.toList = c :: w) :
    wordKind (c :: w) =
      if s = "0" then .nil else if s = "new" then .new
      else if c.isDigit then .unknown else .identifier := by
  have hzero : s = "0" ↔ c :: w = ['0'] := by rw [← h, ← String.toList_inj]; rfl
  have hnew : s = "new" ↔ c :: w = ['n', 'e', 'w'] := by rw [← h, ← String.toList_inj]; rfl
  rw [if_congr hzero rfl rfl, if_congr hnew rfl rfl]
  unfold wordKind
  split
  · next heq => rw [if_pos heq]
  · next heq =>
    have hne : c :: w ≠ ['0'] := by rw [heq]; decide
    rw [if_neg hne, if_pos heq]
  · next d w' hz hn heq =>
    cases heq
    have hz' : c :: w ≠ ['0'] := fun heq => hz (List.cons.inj heq).1 (List.cons.inj heq).2
    have hn' : c :: w ≠ ['n', 'e', 'w'] := fun heq => hn (List.cons.inj heq).1 (List.cons.inj heq).2
    rw [if_neg hz', if_neg hn']
  · next heq => cases heq

theorem symbolKind_of_text {k : TokenKind} {c : Char} (h : ¬ isWordStart c)
    (hk : k.text.toList = [c]) : symbolKind c = k := by
  cases k with
  | nil =>
    obtain rfl : '0' = c := by simpa [TokenKind.text] using hk
    exact absurd (by decide) h
  | _ => simp [TokenKind.text] at hk <;> subst hk <;> rfl

/-- A symbol is of the kind that is called like it, if there is one. -/
theorem symbolKind_cases {c : Char} (h : ¬ isWordStart c) :
    (symbolKind c).text.toList = [c] ∨
      symbolKind c = .unknown ∧ ∀ k : TokenKind, k.text.toList ≠ [c] := by
  by_cases hk : ∃ k : TokenKind, k.text.toList = [c]
  · obtain ⟨k, hk⟩ := hk
    rw [symbolKind_of_text h hk]
    exact .inl hk
  · push Not at hk
    refine .inr ⟨?_, hk⟩
    unfold symbolKind
    split
    · exact absurd rfl (hk .leftParen)
    · exact absurd rfl (hk .rightParen)
    · exact absurd rfl (hk .less)
    · exact absurd rfl (hk .greater)
    · exact absurd rfl (hk .dot)
    · exact absurd rfl (hk .colon)
    · exact absurd rfl (hk .comma)
    · exact absurd rfl (hk .bar)
    · exact absurd rfl (hk .bang)
    · exact absurd rfl (hk .semicolon)
    · rfl

namespace IsLexeme

variable {k : TokenKind} {c : Char} {w : List Char}

theorem of_isWordStart (h : IsLexeme k (c :: w)) (hc : isWordStart c) :
    (∀ d ∈ w, isWordChar d) ∧ k = wordKind (c :: w) := by
  cases h with
  | word start more => exact ⟨more, rfl⟩
  | single start layout => exact absurd hc start

theorem of_not_isWordStart (h : IsLexeme k (c :: w)) (hc : ¬ isWordStart c) :
    w = [] ∧ ¬ IsLayout c ∧ k = symbolKind c := by
  cases h with
  | word start more => exact absurd start hc
  | single start layout => exact ⟨rfl, layout, rfl⟩

end IsLexeme

/-- Whether a token is what stands in a source between two parts of it, has the kind of that, cannot be
longer, and knows its place. -/
structure Token.IsExact (t : Token) (source before behind : List Char) : Prop where
  nonempty : t.raw ≠ ""
  source_eq : source = before ++ t.raw.toList ++ behind
  slice : takeBytes? t.span.start.offset source = some before ∧
    takeBytes? t.span.stop.offset source = some (before ++ t.raw.toList)
  start : t.span.start =
    ⟨byteLength before, before.count '\n', byteLength (before.rtakeWhile (· ≠ '\n'))⟩
  stop : t.span.stop = ⟨t.span.start.offset + t.raw.utf8ByteSize, t.span.start.row,
    t.span.start.column + t.raw.utf8ByteSize⟩
  word : ∀ c w, t.raw.toList = c :: w → c.isAlphanum →
    (∀ d ∈ w, d.isAlphanum ∨ d = '_' ∨ d = '-') ∧
    (∀ d ∈ behind.head?, ¬ (d.isAlphanum ∨ d = '_' ∨ d = '-')) ∧
    t.kind = if t.raw = "0" then .nil else if t.raw = "new" then .new
      else if c.isDigit then .unknown else .identifier
  symbol : ∀ c w, t.raw.toList = c :: w → ¬ c.isAlphanum →
    w = [] ∧ ¬ IsLayout c ∧ (t.kind.text = t.raw ∨ t.kind = .unknown ∧ ∀ k : TokenKind, k.text ≠ t.raw)

theorem Token.Stands.isExact {t : Token} {before behind : List Char} (h : t.Stands before behind) :
    t.IsExact (before ++ t.raw.toList ++ behind) before behind := by
  have hstop : t.span.stop.offset = byteLength (before ++ t.raw.toList) := by
    rw [h.stop, h.start, byteLength_append]
    rfl
  have hlexeme := h.lexeme
  refine ⟨fun hempty => ?_, rfl, ⟨?_, ?_⟩, h.start, ?_, fun c w hc hword => ?_, fun c w hc hword => ?_⟩
  · exact hlexeme.ne_nil (by rw [hempty]; rfl)
  · rw [h.start, List.append_assoc]
    exact takeBytes?_append ..
  · rw [hstop]
    exact takeBytes?_append ..
  · rw [h.stop, Point.advance, byteLength_toList]
  · have hbehind : EndsWord behind := h.longest ⟨c, by rw [hc]; rfl, hword⟩
    rw [hc] at hlexeme
    obtain ⟨hmore, hkind⟩ := hlexeme.of_isWordStart hword
    refine ⟨fun d hd => isWordChar_iff.mp (hmore d hd), fun d hd => ?_, ?_⟩
    · exact fun hd' => hbehind d hd (isWordChar_iff.mpr hd')
    · rw [hkind, wordKind_eq hc]
  · rw [hc] at hlexeme
    obtain ⟨rfl, hlayout, hkind⟩ := hlexeme.of_not_isWordStart hword
    refine ⟨rfl, hlayout, ?_⟩
    simp only [← String.toList_inj, ne_eq, hc, hkind]
    exact symbolKind_cases hword

/-- The tokens of a text come in their order, do not overlap, and leave only layout between them. -/
theorem tokens_exact (source : String) :
    ∃ first pieces, pieces.map Prod.fst = tokens source ∧ laidOut first pieces = source.toList ∧
      (∀ c ∈ first, IsLayout c) ∧ (∀ p ∈ pieces, ∀ c ∈ p.2, IsLayout c) ∧
      (∀ l t gap r, pieces = l ++ (t, gap) :: r →
        t.IsExact source.toList (laidOut first l) (laidOut gap r)) ∧
      (tokens source).Pairwise fun t u => t.span.stop.offset ≤ u.span.start.offset := by
  obtain ⟨first, pieces, h⟩ := scan_laysOut [] source.toList
  refine ⟨first, pieces, h.tokens, h.text, h.layout, h.gaps, fun l t gap r hsplit => ?_, h.pairwise⟩
  have hsource : laidOut first l ++ t.raw.toList ++ laidOut gap r = source.toList := by
    rw [← h.text, hsplit, laidOut_append, laidOut_cons, List.nil_append, List.append_assoc]
  rw [← hsource]
  exact (h.stands l t gap r hsplit).isExact

end PiCalculus
