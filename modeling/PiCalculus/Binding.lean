import PiCalculus.Event
import PiCalculus.Process.Basic

/-! Resolving which name an occurrence stands for. A restriction and a receive introduce names, and
every occurrence of their labels inside becomes an occurrence of the introduced name. -/

namespace PiCalculus

/-- The names that are in force at a place, the innermost first. -/
abbrev Scope (ν : Type) := List ν

namespace Scope

variable {ν : Type} (label : ν → String)

/-- The name in force for the label of `n`. -/
def lookup (scope : Scope ν) (n : ν) : Option ν := scope.find? fun m => label m = label n

/-- The name in force for the label of `n`, or else `n` itself. -/
def resolve (scope : Scope ν) (n : ν) : ν := (scope.lookup label n).getD n

/-- What is in force below a restriction. -/
def restrict (scope : Scope ν) (name : ν) : Scope ν :=
  name :: scope.filter fun m => label m ≠ label name

/-- What is in force for the channel of a receive: its variables, the last one innermost. -/
def receive (scope : Scope ν) (vars : List ν) : Scope ν :=
  vars.reverse ++ scope.filter fun m => ∀ v ∈ vars, label m ≠ label v

/-- What is in force below a receive: also its channel, if nothing else is for that label. -/
def withChannel (scope : Scope ν) (chan : ν) : Scope ν :=
  match scope.lookup label chan with
  | some _ => scope
  | none => chan :: scope

variable [DecidableEq ν]

/-- Tells of the names that a restriction hides, unless it introduces them again. -/
def hiddenByRestrict (scope : Scope ν) (name : ν) : List Event :=
  (scope.reverse.filter fun m => label m = label name ∧ m ≠ name).map fun _ =>
    .rebinding (label name)

/-- Tells of the names that received variables hide, unless they are these variables. -/
def hiddenByReceive (scope : Scope ν) (vars : List ν) : List Event :=
  (scope.reverse.filter fun m => (∃ v ∈ vars, label m = label v) ∧ m ∉ vars).map fun m =>
    .shadowing (label m)

end Scope

namespace Process

variable {ν : Type} (label : ν → String)

/-- Resolves the occurrences below a place with the given names in force. -/
def bindIn (scope : Scope ν) : Process ν → Process ν
  | nil => nil
  | send chan values => send (scope.resolve label chan) (values.map (scope.resolve label))
  | receive chan vars body =>
    let inner := scope.receive label vars
    receive (inner.resolve label chan) vars (body.bindIn (inner.withChannel label chan))
  | par ps => par (ps.map (bindIn scope))
  | replicate body => replicate (body.bindIn scope)
  | restrict name body => restrict name (body.bindIn (scope.restrict label name))
termination_by p => sizeOf p

/-- Makes all occurrences of an introduced name that name. -/
def bind (p : Process ν) : Process ν := p.bindIn label []

variable [DecidableEq ν]

/-- What is told of hidden names while occurrences are resolved, outer nodes first. -/
def hiddenIn (scope : Scope ν) : Process ν → List Event
  | nil | send .. => []
  | receive chan vars body =>
    let inner := scope.receive label vars
    scope.hiddenByReceive label vars ++ body.hiddenIn (inner.withChannel label chan)
  | par ps => ps.flatMap (hiddenIn scope)
  | replicate body => body.hiddenIn scope
  | restrict name body =>
    scope.hiddenByRestrict label name ++ body.hiddenIn (scope.restrict label name)
termination_by p => sizeOf p

def hidden (p : Process ν) : List Event := p.hiddenIn label []

end Process

end PiCalculus
