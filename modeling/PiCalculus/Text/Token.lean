import PiCalculus.Text.Point

/-! Cutting a text into tokens. A word takes all the characters it can, blanks separate and are
dropped, and every other character is a token of its own, so each text has exactly one cut. -/

namespace PiCalculus

inductive TokenKind
  | leftParen | rightParen | less | greater
  | dot | colon | comma | bar | bang | semicolon
  | identifier | nil | new
  | unknown
deriving DecidableEq, Inhabited

/-- How a token of the kind is called where one is missing. -/
def TokenKind.text : TokenKind → String
  | leftParen => "("
  | rightParen => ")"
  | less => "<"
  | greater => ">"
  | dot => "."
  | colon => ":"
  | comma => ","
  | bar => "|"
  | bang => "!"
  | semicolon => ";"
  | identifier => "identifier"
  | nil => "0"
  | new => "new"
  | unknown => "???"

structure Token where
  kind : TokenKind
  raw : String
  span : Span
deriving DecidableEq, Inhabited

/-- The token that some characters form where they stand. -/
def Token.ofChars (kind : TokenKind) (start : Point) (raw : List Char) : Token :=
  ⟨kind, String.ofList raw, start, start.advance raw⟩

def isWordStart (c : Char) : Bool := c.isAlphanum

def isWordChar (c : Char) : Bool := c.isAlphanum || c == '_' || c == '-'

/-- Separates tokens and leaves the row as it is. -/
def isBlank (c : Char) : Bool := c == ' ' || c == '\t' || c == '\r'

/-- What a word is. One that begins with a digit is nothing unless it is the digit zero alone. -/
def wordKind : List Char → TokenKind
  | ['0'] => .nil
  | ['n', 'e', 'w'] => .new
  | c :: _ => if c.isDigit then .unknown else .identifier
  | [] => .unknown

def symbolKind : Char → TokenKind
  | '(' => .leftParen
  | ')' => .rightParen
  | '<' => .less
  | '>' => .greater
  | '.' => .dot
  | ':' => .colon
  | ',' => .comma
  | '|' => .bar
  | '!' => .bang
  | ';' => .semicolon
  | _ => .unknown

/-- The tokens of a text of which `here` is the beginning. -/
def scan (here : Point) : List Char → List Token
  | [] => []
  | c :: cs =>
    if isWordStart c then
      let word := c :: cs.takeWhile isWordChar
      .ofChars (wordKind word) here word :: scan (here.advance word) (cs.dropWhile isWordChar)
    else if c = '\n' then
      scan here.nextLine cs
    else if isBlank c then
      scan (here.advance [c]) cs
    else
      .ofChars (symbolKind c) here [c] :: scan (here.advance [c]) cs
termination_by cs => cs.length
decreasing_by
  · exact Nat.lt_succ_of_le (List.dropWhile_suffix isWordChar).length_le
  all_goals exact Nat.lt_succ_self _

def tokens (source : String) : List Token := scan .origin source.toList

end PiCalculus
