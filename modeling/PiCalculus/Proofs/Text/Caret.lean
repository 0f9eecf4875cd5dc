import Mathlib
import PiCalculus.Proofs.Text.Expected

/-! What is shown of a syntax error. A row counts the line feeds before a place, so its line is what
stands between the line feeds around the place. A line feed takes a carriage return before it along,
but errors stand at tokens or behind them and never between these two, so the line that is shown
reaches up to the error. -/

namespace PiCalculus

/-- A line without the carriage return that a line feed behind it takes along. -/
def withoutReturn (line : List Char) : List Char :=
  if line.getLast? = some '\r' then line.dropLast else line

/-- What stands on its line before a place of a text. -/
def lineUpTo (before : List Char) : List Char := before.rtakeWhile (· ≠ '\n')

/-- The line around a place of a text. -/
def lineAround (before behind : List Char) : List Char :=
  let line := lineUpTo before ++ behind.takeWhile (· ≠ '\n')
  if '\n' ∈ behind then withoutReturn line else line

theorem withoutReturn_append (left : List Char) {right : List Char} (h : right ≠ []) :
    withoutReturn (left ++ right) = left ++ withoutReturn right := by
  rw [withoutReturn, withoutReturn, List.getLast?_append_of_ne_nil left h,
    List.dropLast_append_of_ne_nil h, apply_ite (left ++ ·)]

section lines

variable {line rest : List Char} {c : Char}

theorem lines_cons (hc : c ≠ '\n') (hreturn : c = '\r' → rest.head? ≠ some '\n') :
    lines (c :: rest) = (c :: (lines rest).head?.getD []) :: (lines rest).tail := by
  rw [lines.eq_4 c rest hc fun cs hr hcs => hreturn hr (hcs ▸ rfl)]
  cases lines rest <;> rfl

theorem lines_of_notMem (h : '\n' ∉ line) (hne : line ≠ []) : lines line = [line] := by
  induction line with
  | nil => exact absurd rfl hne
  | cons c cs ih =>
    obtain ⟨hc, hcs⟩ := not_or.mp (mt List.mem_cons.mpr h)
    rw [lines_cons (Ne.symm hc) fun _ hhead => hcs (List.mem_of_mem_head? hhead)]
    cases cs with
    | nil => rfl
    | cons d ds => rw [ih hcs (List.cons_ne_nil d ds)]; rfl

theorem lines_append_newline (h : '\n' ∉ line) :
    lines (line ++ '\n' :: rest) = withoutReturn line :: lines rest := by
  induction line with
  | nil => rw [List.nil_append, lines]; rfl
  | cons c cs ih =>
    obtain ⟨hc, hcs⟩ := not_or.mp (mt List.mem_cons.mpr h)
    cases cs with
    | nil =>
      by_cases hreturn : c = '\r'
      · rw [hreturn, List.singleton_append, lines]
        rfl
      · rw [List.singleton_append, lines_cons (Ne.symm hc) fun hr => absurd hr hreturn, lines]
        simp [withoutReturn, hreturn]
    | cons d ds =>
      have hd : d ≠ '\n' := fun hd => hcs (hd ▸ List.mem_cons_self)
      rw [List.cons_append, lines_cons (Ne.symm hc) (fun _ => by simpa using hd), ih hcs,
        ← List.singleton_append (l := d :: ds), withoutReturn_append [c] (List.cons_ne_nil d ds)]
      rfl

end lines

section place

variable {before behind : List Char}

theorem lineUpTo_append_newline (line rest : List Char) :
    lineUpTo (line ++ '\n' :: rest) = lineUpTo rest := by
  rw [lineUpTo, lineUpTo, List.rtakeWhile, List.rtakeWhile, List.reverse_append,
    List.reverse_cons, List.append_assoc, List.singleton_append, List.takeWhile_append]
  split
  · next hall =>
    rw [List.takeWhile_cons_of_neg (by simp), List.append_nil,
      (List.takeWhile_prefix _).eq_of_length hall]
  · rfl

theorem lineUpTo_of_notMem (h : '\n' ∉ before) : lineUpTo before = before := by
  rw [lineUpTo, List.rtakeWhile_eq_self_iff]
  intro c hc
  exact decide_eq_true fun heq => h (heq ▸ hc)

/-- There is a line in the row of a place, unless this is the end of a text behind its last line. -/
theorem getElem?_lines (h : lineUpTo before ++ behind ≠ []) :
    (lines (before ++ behind))[before.count '\n']? = some (lineAround before behind) := by
  induction hlength : before.length using Nat.strong_induction_on generalizing before with
  | h n ih =>
  -- Each line that ends before the place is taken off, and the row counts them.
  by_cases hbefore : '\n' ∈ before
  · obtain ⟨line, rest, rfl, hline⟩ := List.eq_append_cons_of_mem hbefore
    rw [lineUpTo_append_newline] at h
    have hlt : rest.length < n := by
      rw [← hlength, List.length_append, List.length_cons]
      omega
    have hrest := ih rest.length hlt h rfl
    have hcount : (line ++ '\n' :: rest).count '\n' = rest.count '\n' + 1 := by
      rw [List.count_append, List.count_eq_zero.mpr hline, List.count_cons_self, Nat.zero_add]
    rw [List.append_assoc, List.cons_append, lines_append_newline hline, hcount,
      List.getElem?_cons_succ, hrest, lineAround, lineAround, lineUpTo_append_newline]
  · rw [List.count_eq_zero.mpr hbefore, lineAround]
    rw [lineUpTo_of_notMem hbefore] at h ⊢
    by_cases hbehind : '\n' ∈ behind
    · obtain ⟨line, rest, rfl, hline⟩ := List.eq_append_cons_of_mem hbehind
      have hpos : ∀ c ∈ line, decide (c ≠ '\n') := fun c hc =>
        decide_eq_true fun heq => hline (heq ▸ hc)
      have htake : (line ++ '\n' :: rest).takeWhile (· ≠ '\n') = line := by
        rw [List.takeWhile_append_of_pos hpos, List.takeWhile_cons_of_neg (by simp), List.append_nil]
      rw [if_pos hbehind, htake, ← List.append_assoc, lines_append_newline (by simp [hbefore, hline])]
      rfl
    · have htake : behind.takeWhile (· ≠ '\n') = behind :=
        List.takeWhile_eq_self_iff.mpr fun c hc => decide_eq_true fun heq => hbehind (heq ▸ hc)
      rw [if_neg hbehind, htake, lines_of_notMem (by simp [hbefore, hbehind]) h]
      rfl

/-- The line around a place begins with what stands before the place, unless that is between a
carriage return and the line feed which takes it along. -/
theorem lineUpTo_prefix (h : before.getLast? = some '\r' → behind.head? ≠ some '\n') :
    lineUpTo before <+: lineAround before behind := by
  rw [lineAround]
  split
  · next hbehind =>
    -- With more of the line behind the place it is there that a carriage return is taken off.
    by_cases hright : behind.takeWhile (· ≠ '\n') = []
    · have hhead : behind.head? = some '\n' := by
        cases behind with
        | nil => cases hbehind
        | cons c cs =>
          by_contra hc
          rw [List.takeWhile_cons_of_pos (by simpa using hc)] at hright
          cases hright
      have hlast : (lineUpTo before).getLast? ≠ some '\r' := by
        intro hlast
        obtain ⟨above, habove⟩ : lineUpTo before <:+ before := List.rtakeWhile_suffix _ _
        have hne : lineUpTo before ≠ [] := by
          rintro hnil
          rw [hnil] at hlast
          cases hlast
        rw [← List.getLast?_append_of_ne_nil above hne, habove] at hlast
        exact h hlast hhead
      rw [hright, List.append_nil, withoutReturn, if_neg hlast]
    · rw [withoutReturn_append _ hright]
      exact List.prefix_append ..
  · exact List.prefix_append ..

end place

namespace Point

variable {source : String} {before behind : List Char}

/-- What is shown of a place in the text, and that neither its row nor its column has to be made
up. -/
theorem caret_behind (hsource : before ++ behind = source.toList)
    (hline : lineUpTo before ++ behind ≠ [])
    (hreturn : before.getLast? = some '\r' → behind.head? ≠ some '\n') :
    let p := Point.behind before
    let line := lineAround before behind
    (lines source.toList)[p.row]? = some line ∧ p.column ≤ byteLength line ∧
      takeBytes? p.column line = some (lineUpTo before) ∧
      p.caret source = String.ofList ((toString (before.count '\n' + 1)).toList.leftpad 4 ' ') ++ " | "
        ++ String.ofList line ++ "\n" ++ "     | "
        ++ String.ofList ((lineUpTo before).map fun c => if c = '\t' then '\t' else ' ') ++ "^\n" := by
  intro p line
  have hrow : (lines source.toList)[p.row]? = some line := by
    rw [← hsource]
    exact getElem?_lines hline
  obtain ⟨more, hmore⟩ : lineUpTo before <+: line := lineUpTo_prefix hreturn
  have hcolumn : p.column = byteLength (lineUpTo before) := rfl
  have hle : p.column ≤ byteLength line := by
    rw [← hmore, byteLength_append, hcolumn]
    exact Nat.le_add_right ..
  have hbytes : takeBytes? p.column line = some (lineUpTo before) := by
    rw [← hmore, hcolumn]
    exact takeBytes?_append ..
  have hlineOf : p.lineOf source = line := by rw [lineOf, hrow, Option.getD_some]
  have hlineBefore : p.lineBefore source = lineUpTo before := by
    rw [Point.lineBefore, hlineOf, Nat.min_eq_left hle, hbytes, Option.getD_some]
  refine ⟨hrow, hle, hbytes, ?_⟩
  rw [caret, hlineOf, hlineBefore]
  rfl

end Point

/-- Where an error stands: what is before it in the text, what it marks, and what is behind that. -/
structure SyntaxError.Stands (e : SyntaxError) (source : String) (before marked behind : List Char) :
    Prop where
  text : before ++ (marked ++ behind) = source.toList
  start : e.span.start = .behind before
  stop : e.span.stop = e.span.start.advance marked
  line : source ≠ "" → lineUpTo before ++ (marked ++ behind) ≠ []
  apart : before.getLast? = some '\r' → (marked ++ behind).head? ≠ some '\n'

theorem IsLexeme.not_isLayout {k : TokenKind} {raw : List Char} (h : IsLexeme k raw) :
    ∀ c ∈ raw, ¬ IsLayout c := by
  intro c hc hlayout
  cases h with
  | word start more =>
    rcases List.mem_cons.mp hc with rfl | hc
    · exact hlayout.not_isWordChar (isWordChar_of_isWordStart start)
    · exact hlayout.not_isWordChar (more c hc)
  | single start layout =>
    obtain rfl := List.mem_singleton.mp hc
    exact layout hlayout

namespace SyntaxError

variable {source : String} {e : SyntaxError} {t : Token} {before behind : List Char}

theorem stands_token (ht : t.Stands before behind)
    (htext : before ++ (t.raw.toList ++ behind) = source.toList) (hspan : e.span = t.span) :
    e.Stands source before t.raw.toList behind := by
  obtain ⟨c, cs, hraw⟩ := List.exists_cons_of_ne_nil ht.lexeme.ne_nil
  refine ⟨htext, ?_, ?_, ?_, ?_⟩
  · rw [hspan]
    exact ht.start
  · rw [hspan]
    exact ht.stop
  · simp [hraw]
  · rintro - hhead
    have hc : c = '\n' := by simpa [hraw] using hhead
    apply ht.lexeme.newline_notMem
    rw [hraw, hc]
    exact List.mem_cons_self

/-- An error behind a token marks nothing. The last character of a token is not layout, so the line of
the error is not empty and no carriage return stands before it. -/
theorem stands_behind_token (ht : t.Stands before behind)
    (htext : before ++ (t.raw.toList ++ behind) = source.toList) (hspan : e.span = t.span.stop.span) :
    e.Stands source (before ++ t.raw.toList) [] behind := by
  obtain ⟨init, c, hraw⟩ := (List.eq_nil_or_concat' _).resolve_left ht.lexeme.ne_nil
  have hlayout : ¬ IsLayout c := ht.lexeme.not_isLayout c (by simp [hraw])
  refine ⟨?_, ?_, ?_, ?_, ?_⟩
  · rw [List.append_assoc, List.nil_append, htext]
  · rw [hspan]
    exact ht.stop_eq
  · rw [hspan]
    rfl
  · have hc : decide (c ≠ '\n') := decide_eq_true fun hc => hlayout (by simp [IsLayout, hc])
    have hline : lineUpTo (before ++ t.raw.toList) = lineUpTo (before ++ init) ++ [c] := by
      rw [hraw, ← List.append_assoc]
      exact List.rtakeWhile_concat_pos (· ≠ '\n') _ c hc
    simp [hline]
  · intro hreturn
    have hc : c = '\r' := by simpa [hraw] using hreturn
    exact absurd (by simp [IsLayout, hc]) hlayout

theorem stands_origin (hspan : e.span = Point.origin.span) : e.Stands source [] [] source.toList := by
  refine ⟨rfl, ?_, ?_, ?_, ?_⟩
  · rw [hspan]
    rfl
  · rw [hspan]
    rfl
  · intro hne hnil
    exact hne (by simpa using (List.append_eq_nil_iff.mp hnil).2)
  · simp

end SyntaxError

namespace Program

variable {source : String} {e : SyntaxError}

/-- An error marks a token, or it stands behind the last one, or there are no tokens. -/
theorem exists_stands (h : Program.parse source = .error e) :
    ∃ before marked behind, e.Stands source before marked behind := by
  obtain ⟨m, -, hat, -⟩ := exists_isAt h
  have hspan := (hat.2 _ hat.1).mpr rfl
  generalize Grammar.reported ((tokens source).map Token.kind) m = k at hspan
  rw [Grammar.spanAt] at hspan
  cases htoken : (tokens source)[k]? with
  | some t =>
    rw [htoken] at hspan
    obtain ⟨before, behind, htext, hstands⟩ :=
      exists_stands_of_mem_tokens (List.mem_of_getElem? htoken)
    exact ⟨_, _, _, SyntaxError.stands_token hstands htext hspan⟩
  | none =>
    rw [htoken] at hspan
    cases hlast : (tokens source).getLast? with
    | some t =>
      rw [hlast] at hspan
      obtain ⟨before, behind, htext, hstands⟩ :=
        exists_stands_of_mem_tokens (List.mem_of_getLast? hlast)
      exact ⟨_, _, _, SyntaxError.stands_behind_token hstands htext hspan⟩
    | none =>
      rw [hlast] at hspan
      exact ⟨_, _, _, SyntaxError.stands_origin hspan⟩

/-- The shown line is that of the error and the caret stands at the error; the marked stretch is one
of whole characters of the text. -/
theorem parse_pointed (nonempty : source ≠ "") (h : Program.parse source = .error e) :
    ∃ before marked behind, before ++ marked ++ behind = source.toList ∧
      e.span.start = .behind before ∧
      (let line := lineAround before (marked ++ behind)
      (lines source.toList)[e.span.start.row]? = some line ∧
        e.span.start.column ≤ byteLength line ∧
        takeBytes? e.span.start.column line = some (lineUpTo before) ∧
        e.caret source =
          String.ofList ((toString (before.count '\n' + 1)).toList.leftpad 4 ' ') ++ " | "
            ++ String.ofList line ++ "\n" ++ "     | "
            ++ String.ofList ((lineUpTo before).map fun c => if c = '\t' then '\t' else ' ')
            ++ "^\n") ∧
      e.span.length = byteLength marked ∧
      ∃ mark, e.report.marks = [mark] ∧ mark.offset = byteLength before ∧
        ∃ covered rest, marked ++ behind = covered ++ rest ∧ mark.length = byteLength covered := by
  obtain ⟨before, marked, behind, hstands⟩ := exists_stands h
  have hlength : e.span.length = byteLength marked := by
    rw [Span.length, hstands.stop]
    exact Nat.add_sub_cancel_left ..
  refine ⟨before, marked, behind, ?_, hstands.start, ?_, hlength, ?_⟩
  · rw [List.append_assoc, hstands.text]
  · rw [SyntaxError.caret, hstands.start]
    exact Point.caret_behind hstands.text (hstands.line nonempty) hstands.apart
  · refine ⟨_, rfl, by rw [hstands.start]; rfl, ?_⟩
    -- A single byte is marked as a point.
    by_cases hone : e.span.length = 1
    · exact ⟨[], marked ++ behind, rfl, if_pos hone⟩
    · exact ⟨marked, behind, rfl, (if_neg hone).trans hlength⟩

/-- Behind a tab in a line that ends with a carriage return and a line feed. -/
theorem parse_pointed_tab :
    "(new a)\r\n\té<x>\r\n" ≠ "" ∧ ∃ e, Program.parse "(new a)\r\n\té<x>\r\n" = .error e ∧
      e.caret "(new a)\r\n\té<x>\r\n" = "   2 | \té<x>\n     | \t^\n" ∧
      ∃ before marked behind, before ++ marked ++ behind = "(new a)\r\n\té<x>\r\n".toList ∧
        e.span.start = .behind before ∧ e.span.length = byteLength marked := by
  have hne : "(new a)\r\n\té<x>\r\n" ≠ "" := by decide
  have herror : ∃ e, Program.parse "(new a)\r\n\té<x>\r\n" = .error e ∧
      e.caret "(new a)\r\n\té<x>\r\n" = "   2 | \té<x>\n     | \t^\n" := by decide +kernel
  obtain ⟨e, he, hcaret⟩ := herror
  obtain ⟨before, marked, behind, htext, hstart, -, hlength, -⟩ := parse_pointed hne he
  exact ⟨hne, e, he, hcaret, before, marked, behind, htext, hstart, hlength⟩

end Program

end PiCalculus
