import PiCalculus.Process.Basic
import PiCalculus.Report
import PiCalculus.Text.Token

/-! Reading a process from tokens. One or two tokens open a construct and settle which one it is;
after them nothing else is tried. A list or a composition takes a separator only if a further
element opens behind it, and leaves it otherwise to what follows. -/

namespace PiCalculus

/-- A name as it is written: its label, the hint that a restriction gives it, and its place. -/
structure Occurrence where
  label : String
  hint : Option String
  span : Span
deriving DecidableEq, Inhabited

/-- What was being read when a token did not fit. -/
inductive Construct
  | process | restriction | restrictedName | send | receive
deriving DecidableEq

def Construct.text : Construct → String
  | process => "process"
  | restriction => "restriction"
  | restrictedName => "restricted name"
  | send => "send"
  | receive => "receive"

/-- What should have stood in the place of the token that did not fit. -/
inductive Expectation
  | token (reading : Construct) (kind : TokenKind)
  | endOfInput
deriving DecidableEq

def Expectation.help : Expectation → String
  | token reading kind => "invalid " ++ reading.text ++ "\nexpected `" ++ kind.text ++ "`"
  | endOfInput => "expected end of input"

/-- Where reading stopped: the tokens from the one that did not fit on. -/
structure Misfit where
  rest : List Token
  expectation : Expectation
deriving DecidableEq

namespace Parser

/-- The tokens behind one of the given kind. -/
def expect (reading : Construct) (kind : TokenKind) : List Token → Except Misfit (List Token)
  | [] => .error ⟨[], .token reading kind⟩
  | t :: ts => if t.kind = kind then .ok ts else .error ⟨t :: ts, .token reading kind⟩

def occurrence (t : Token) (hint : Option String) : Occurrence := ⟨t.raw, hint, t.span⟩

/-- Further names of a list, each behind a comma. -/
def moreNames : List Token → List Occurrence × List Token
  | comma :: name :: ts =>
    if comma.kind = .comma ∧ name.kind = .identifier then
      let (names, rest) := moreNames ts
      (occurrence name none :: names, rest)
    else ([], comma :: name :: ts)
  | ts => ([], ts)

/-- A list of names, which may be empty. -/
def names : List Token → List Occurrence × List Token
  | [] => ([], [])
  | name :: ts =>
    if name.kind = .identifier then
      let (names, rest) := moreNames ts
      (occurrence name none :: names, rest)
    else ([], name :: ts)

/-- The hint of a restricted name, if a colon announces one. -/
def hint : List Token → Except Misfit (Option String × List Token)
  | colon :: ts =>
    if colon.kind = .colon then
      match ts with
      | [] => .error ⟨[], .token .restrictedName .identifier⟩
      | t :: rest =>
        if t.kind = .identifier then .ok (some t.raw, rest)
        else .error ⟨ts, .token .restrictedName .identifier⟩
    else .ok (none, colon :: ts)
  | [] => .ok (none, [])

def binder : List Token → Except Misfit (Occurrence × List Token)
  | [] => .error ⟨[], .token .restrictedName .identifier⟩
  | t :: ts =>
    if t.kind = .identifier then do
      let (hint, rest) ← hint ts
      return (occurrence t hint, rest)
    else .error ⟨t :: ts, .token .restrictedName .identifier⟩

/-- Further restricted names, each behind a comma; at most so many. -/
def moreBinders : Nat → List Token → Except Misfit (List Occurrence × List Token)
  | n + 1, comma :: t :: ts =>
    if comma.kind = .comma ∧ t.kind = .identifier then do
      let (name, rest) ← binder (t :: ts)
      let (names, rest) ← moreBinders n rest
      return (name :: names, rest)
    else .ok ([], comma :: t :: ts)
  | _, ts => .ok ([], ts)

/-- What opens a process that is not a composition. -/
inductive Opening
  | nil
  | replicate
  | restrict
  | group
  | send (chan : Occurrence)
  | receive (chan : Occurrence)

/-- The opening of a process and the tokens behind it. -/
def opening? : List Token → Option (Opening × List Token)
  | [] => none
  | t :: ts =>
    match t.kind, ts with
    | .nil, ts => some (.nil, ts)
    | .bang, ts => some (.replicate, ts)
    | .leftParen, next :: rest =>
      if next.kind = .new then some (.restrict, rest) else some (.group, next :: rest)
    | .leftParen, [] => some (.group, [])
    | .identifier, next :: rest =>
      if next.kind = .less then some (.send (occurrence t none), rest)
      else if next.kind = .leftParen then some (.receive (occurrence t none), rest)
      else none
    | _, _ => none

mutual

/-- A process that is not a composition, unless in parentheses. The number bounds the nesting. -/
def atom : Nat → List Token → Except Misfit (Process Occurrence × List Token)
  | 0, ts => .error ⟨ts, .token .process .leftParen⟩
  | n + 1, ts =>
    match opening? ts with
    | none => .error ⟨ts, .token .process .leftParen⟩
    | some (.nil, rest) => .ok (.nil, rest)
    | some (.replicate, rest) => do
      let (body, rest) ← atom n rest
      return (.replicate body, rest)
    | some (.restrict, rest) => do
      let (name, rest) ← binder rest
      let (names, rest) ← moreBinders n rest
      let rest ← expect .restriction .rightParen rest
      let (body, rest) ← atom n rest
      return (.restrictAll (name :: names) body, rest)
    | some (.group, rest) => do
      let (body, rest) ← composition n rest
      let rest ← expect .process .rightParen rest
      return (body, rest)
    | some (.send chan, rest) => do
      let (values, rest) := names rest
      let rest ← expect .send .greater rest
      return (.send chan values, rest)
    | some (.receive chan, rest) => do
      let (vars, rest) := names rest
      let rest ← expect .receive .rightParen rest
      let rest ← expect .receive .dot rest
      let (body, rest) ← atom n rest
      return (.receive chan vars body, rest)

/-- Processes between bars, grouped to the left. -/
def composition : Nat → List Token → Except Misfit (Process Occurrence × List Token)
  | 0, ts => .error ⟨ts, .token .process .leftParen⟩
  | n + 1, ts => do
    let (left, rest) ← atom n ts
    beside n left rest

/-- What a process becomes by the bars behind it. -/
def beside : Nat → Process Occurrence → List Token →
    Except Misfit (Process Occurrence × List Token)
  | n + 1, left, bar :: ts =>
    if bar.kind = .bar ∧ (opening? ts).isSome then do
      let (right, rest) ← atom n ts
      beside n (.par [left, right]) rest
    else .ok (left, bar :: ts)
  | _, left, ts => .ok (left, ts)

end

def all (ts : List Token) : Except Misfit (Process Occurrence) :=
  match composition (2 * ts.length + 2) ts with
  | .error misfit => .error misfit
  | .ok (p, []) => .ok p
  | .ok (_, rest) => .error ⟨rest, .endOfInput⟩

end Parser

structure SyntaxError where
  /-- The token that did not fit, or the empty span behind the last token. -/
  span : Span
  expectation : Expectation
deriving DecidableEq

namespace SyntaxError

def message (e : SyntaxError) : String := "Syntax error at " ++ e.span.start.render ++ "."

def help (e : SyntaxError) : String := e.expectation.help

/-- The report marks the token that did not fit; a single byte is marked as a point. -/
def report (e : SyntaxError) : Report :=
  let length := if e.span.length = 1 then 0 else e.span.length
  ⟨e.message, some e.help, [⟨e.span.start.offset, length, none⟩]⟩

/-- The line of the text that did not fit, with a caret. -/
def caret (e : SyntaxError) (source : String) : String := e.span.start.caret source

def ofMisfit (ts : List Token) (misfit : Misfit) : SyntaxError :=
  let span :=
    match misfit.rest, ts.getLast? with
    | t :: _, _ => t.span
    | [], some last => last.span.stop.span
    | [], none => Point.origin.span
  ⟨span, misfit.expectation⟩

end SyntaxError

/-- The process that a text stands for. -/
def parse (source : String) : Except SyntaxError (Process Occurrence) :=
  (Parser.all (tokens source)).mapError (.ofMisfit (tokens source))

end PiCalculus
