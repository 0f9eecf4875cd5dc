import PiCalculus.Event
import PiCalculus.Report

/-! What a command writes: to the output, to the error output, or as a report on a text. -/

namespace PiCalculus

inductive Piece
  | out (text : String)
  | err (text : String)
  | report (report : Report)

/-- What was written, in order. -/
abbrev Transcript := List Piece

structure Style where
  colour : Bool
  /-- Tells also of events that are no warnings. -/
  verbose : Bool

inductive Colour
  | red | yellow | cyan | grey

def Colour.code : Colour → String
  | red => "91"
  | yellow => "33"
  | cyan => "36"
  | grey => "90"

namespace Style

def reset : String := "\x1b[0m"

/-- Puts `start` behind everything in a text that switches a terminal back. -/
def restart (start : List Char) : List Char → List Char
  | '\x1b' :: '[' :: '0' :: 'm' :: rest => reset.toList ++ start ++ restart start rest
  | c :: rest => c :: restart start rest
  | [] => []

/-- The text in a colour, to which it returns wherever the text itself leaves it. -/
def paint (style : Style) (colour : Colour) (text : String) : String :=
  if style.colour then
    let start := "\x1b[" ++ colour.code ++ "m"
    start ++ String.ofList (restart start.toList text.toList) ++ reset
  else text

/-- A line that answers. -/
def respond (style : Style) (text : String) : Piece := .out (style.paint .cyan text ++ "\n")

/-- The module that an event is logged for. -/
def origin (e : Event) : String :=
  if e.isWarning then "asyncpi::par::bind: " else "asyncpi::par::reduce: "

/-- The lines of the events that are told. -/
def log (style : Style) (events : List Event) : Transcript :=
  (events.filter fun e => e.isWarning || style.verbose).map fun e =>
    .err (e.render (origin e) ++ "\n")

end Style

namespace Transcript

def stdout (t : Transcript) : String :=
  String.join (t.map fun | .out text => text | _ => "")

/-- The error output, with reports in the given form. -/
def stderr (t : Transcript) (form : Report → String) : String :=
  String.join (t.map fun | .err text => text | .report r => form r | .out _ => "")

end Transcript

end PiCalculus
