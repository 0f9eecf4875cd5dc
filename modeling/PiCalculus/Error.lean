import PiCalculus.Report
import PiCalculus.Ty.Basic

/-! The failures of the passes over a process, and their words. -/

namespace PiCalculus

/-- How a channel and what is received on it do not fit together. -/
inductive Conflict
  | mismatch (expected found : Shape)
  | arity (got expected : Nat)
  | notAChannel (found : Shape)

/-- What the type of a name stands for when all names that it refers to are gone: a channel carries as
many values as before, but nothing is known of them. -/
def Shape.withoutNames : Shape → Shape
  | .chan (.composite ts) => .chan (.composite (ts.map fun _ => .untyped))
  | .chan _ => .chan .untyped
  | t => t

/-- The conflict as it is told when no name is left. -/
def Conflict.withoutNames : Conflict → Conflict
  | mismatch expected found =>
    mismatch (Shape.withoutNames expected) (Shape.withoutNames found)
  | arity got expected => arity got expected
  | notAChannel found => notAChannel (Shape.withoutNames found)

/-- A conflict on a channel, which is named as it is labelled and where it is written. -/
structure TypeError where
  chan : String
  span : Option Span
  conflict : Conflict

inductive Error
  /-- A constant name was to be written to. -/
  | immutableName (label : String)
  /-- So many values were to be put for so many variables. -/
  | unevenSubstitution (values vars : Nat)
  | type (error : TypeError)
  /-- A text did not fit where it was to be put. -/
  | format

namespace TypeError

def message (e : TypeError) : String :=
  match e.conflict with
  | .mismatch expected found =>
    "type error: type " ++ expected.render ++ " and " ++ found.render
      ++ " does not match (types inferred from channel " ++ e.chan ++ " are in conflict)"
  | .arity got expected =>
    "type error: arity mismatch (got=" ++ toString got ++ ", expected=" ++ toString expected
      ++ ") (types from channel " ++ e.chan ++ " and vars have different arity)"
  | .notAChannel found =>
    "type error: " ++ e.chan ++ " has type " ++ found.render ++ " which is not a channel"

/-- The report marks the channel where it is written. -/
def report (e : TypeError) : Report :=
  let marks := e.span.toList.map fun span =>
    ⟨span.start.offset, span.length, some "on this channel"⟩
  match e.conflict with
  | .mismatch expected found =>
    ⟨"Type `" ++ expected.render ++ "` and `" ++ found.render ++ "` do not match.",
      some ("Types inferred from channel `" ++ e.chan ++ "` are in conflict."), marks⟩
  | .arity got expected =>
    ⟨"Arity mismatch (got " ++ toString got ++ ", expected " ++ toString expected ++ ").",
      some ("Types from channel `" ++ e.chan
        ++ "` and the received variables have different arity."), marks⟩
  | .notAChannel found =>
    ⟨"`" ++ e.chan ++ "` has type `" ++ found.render ++ "`, which is not a channel.", none,
      marks⟩

end TypeError

def Error.withoutNames : Error → Error
  | type e => type { e with conflict := e.conflict.withoutNames }
  | e => e

def Error.message : Error → String
  | immutableName label => "name `" ++ label ++ "` is not mutable"
  | unevenSubstitution values vars =>
    "cannot substitute " ++ toString values ++ " value(s) for " ++ toString vars ++ " variable(s)"
  | type e => e.message
  | format => "an error occurred when formatting an argument"

end PiCalculus
