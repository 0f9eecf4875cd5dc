/-! Positions in a text, stretches of it, and the line of the text that a position lies on with a
caret under it. Columns and offsets count bytes of the UTF-8 encoding. -/

namespace PiCalculus

/-- The number of bytes that the characters take in UTF-8. -/
def byteLength : List Char → Nat
  | [] => 0
  | c :: cs => c.utf8Size + byteLength cs

/-- The first characters of a text that take exactly so many bytes, if some number of them does. -/
def takeBytes? : Nat → List Char → Option (List Char)
  | 0, _ => some []
  | _, [] => none
  | n, c :: cs => if c.utf8Size ≤ n then (takeBytes? (n - c.utf8Size) cs).map (c :: ·) else none

/-- The lines of a text. Each ends at a line feed, which takes one carriage return before it along;
nothing follows a last line feed. -/
def lines : List Char → List (List Char)
  | [] => []
  | '\n' :: cs => [] :: lines cs
  | '\r' :: '\n' :: cs => [] :: lines cs
  | c :: cs =>
    match lines cs with
    | [] => [[c]]
    | line :: more => (c :: line) :: more

/-- A position, counted from zero. -/
structure Point where
  offset : Nat
  row : Nat
  column : Nat
deriving DecidableEq, Inhabited

/-- The stretch from one position up to another. -/
structure Span where
  start : Point
  stop : Point
deriving DecidableEq, Inhabited

namespace Point

def origin : Point := ⟨0, 0, 0⟩

/-- The position after some characters of the same line. -/
def advance (p : Point) (text : List Char) : Point :=
  ⟨p.offset + byteLength text, p.row, p.column + byteLength text⟩

def nextLine (p : Point) : Point := ⟨p.offset + 1, p.row + 1, 0⟩

/-- The empty stretch at a position. -/
def span (p : Point) : Span := ⟨p, p⟩

/-- Row and column as people count them, from one. -/
def render (p : Point) : String := toString (p.row + 1) ++ ":" ++ toString (p.column + 1)

/-- The line of the text that the position lies on, empty past the last one. -/
def lineOf (p : Point) (source : String) : List Char := (lines source.toList)[p.row]?.getD []

/-- What stands on the line before the position: all of the line if the column is past its end or
inside a character. -/
def lineBefore (p : Point) (source : String) : List Char :=
  let line := p.lineOf source
  (takeBytes? (min p.column (byteLength line)) line).getD line

/-- The line of the position under its row number, and below it a caret at the position. The caret
stands behind one blank per character, where a tab stays a tab. -/
def caret (p : Point) (source : String) : String :=
  let number := (toString (p.row + 1)).toList.leftpad 4 ' '
  let indent := (p.lineBefore source).map fun c => if c = '\t' then '\t' else ' '
  String.ofList number ++ " | " ++ String.ofList (p.lineOf source) ++ "\n"
    ++ "     | " ++ String.ofList indent ++ "^\n"

end Point

namespace Span

/-- The number of bytes covered. -/
def length (s : Span) : Nat := s.stop.offset - s.start.offset

def isEmpty (s : Span) : Bool := s.length == 0

end Span

end PiCalculus
