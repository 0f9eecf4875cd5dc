import PiCalculus.Process.Basic
import PiCalculus.Store.Chain
import PiCalculus.Store.Equality
import PiCalculus.Store.Unfolding
import PiCalculus.Store.Write

/-! Types of channels. Every channel is typed after what is sent or received on it, by references
to these names; then what each receive binds is brought together with what its channel carries. -/

namespace PiCalculus

/-- A channel with the names that are sent or received on it. -/
inductive Use (ν : Type)
  | sent (chan : ν) (values : List ν)
  | received (chan : ν) (vars : List ν)

namespace Process

variable {ν : Type}

/-- The uses of channels, those below a receive before it. -/
def uses : Process ν → List (Use ν)
  | nil => []
  | send chan values => [.sent chan values]
  | receive chan vars body => body.uses ++ [.received chan vars]
  | par ps => ps.flatMap uses
  | replicate body | restrict _ body => body.uses
termination_by p => sizeOf p

/-- The receives by channels and variables, those below a receive after it. -/
def receives : Process ν → List (ν × List ν)
  | nil | send .. => []
  | receive chan vars body => (chan, vars) :: body.receives
  | par ps => ps.flatMap receives
  | replicate body | restrict _ body => body.receives
termination_by p => sizeOf p

end Process

namespace Store

/-- The type that stands for a name: the reference that it has for its type, or one to it. -/
def pointer (s : Store) (n : Name) : Ty Name :=
  match s.type n with
  | .reference m => .reference m
  | _ => .reference n

/-- The element type of a channel that carries the given names. -/
def element (s : Store) (names : List Name) : Ty Name :=
  match names with
  | [n] => s.pointer n
  | _ => .composite (names.map s.pointer)

/-- Types a channel after a use: always if it is sent on, and if it is received on only where its
type is unknown. -/
def inferUse (s : Store) : Use Name → Written
  | .sent chan values => s.setType chan (.chan (s.element values))
  | .received chan vars =>
    if (s.type chan).isUntyped then s.setType chan (.chan (s.element vars)) else ⟨s, none⟩

def infer (s : Store) (p : Process Name) : Written := s.writeEach inferUse p.uses

/-- Brings together a type that a channel carries and a variable that receives it. The side that is
unknown takes the type of the other, unless it would come to refer to itself. -/
def unifyVar (chan : Name) (s : Store) (elem : Ty Name) (var : Name) : Written :=
  let found := s.type var
  if found.isUntyped then
    if s.refersTo elem var then ⟨s, none⟩ else s.setType var elem
  else
    match (s.deref elem).isUntyped, s.terminal? elem with
    | true, some target =>
      if target = var ∨ s.refersTo found target then ⟨s, none⟩ else s.setType target found
    | _, _ =>
      match (s.deref found).isUntyped, s.terminal? found with
      | true, some target =>
        if s.refersTo elem target then ⟨s, none⟩ else s.setType target elem
      | _, _ =>
        if s.equal elem found then ⟨s, none⟩
        else ⟨s, some (.type ⟨s.label chan, s.span chan,
          .mismatch (s.unfold (s.deref elem)) (s.unfold (s.deref found))⟩)⟩

/-- Brings together what a channel carries and the variables of a receive on it. -/
def unifyReceive (s : Store) (chan : Name) (vars : List Name) : Written :=
  match s.deref (s.type chan) with
  | .chan elem =>
    if elem.arity = vars.length then
      s.writeEach (fun s (elem, var) => s.unifyVar chan elem var) (elem.elements.zip vars)
    else
      ⟨s, some (.type ⟨s.label chan, s.span chan, .arity elem.arity vars.length⟩)⟩
  | found => ⟨s, some (.type ⟨s.label chan, s.span chan, .notAChannel (s.unfold found)⟩)⟩

/-- Brings together channels and variables at every receive, up to the first conflict. -/
def unify (s : Store) (p : Process Name) : Written :=
  s.writeEach (fun s (chan, vars) => s.unifyReceive chan vars) p.receives

def inferAndUnify (s : Store) (p : Process Name) : Written :=
  match s.infer p with
  | ⟨t, none⟩ => t.unify p
  | stopped => stopped

/-- The types of the channels where they are introduced and used, in one line. -/
def channelTypes (s : Store) : Process Name → String
  | .nil => "0"
  | .send chan _ => s.label chan ++ "!" ++ s.renderType (s.type chan)
  | .receive chan _ body =>
    s.label chan ++ "?" ++ s.renderType (s.type chan) ++ "; " ++ s.channelTypes body
  | .par ps => "|".intercalate (ps.map s.channelTypes)
  | .replicate body => "*" ++ s.channelTypes body
  | .restrict name body =>
    "(ν" ++ s.label name ++ ":" ++ s.renderType (s.type name) ++ ") " ++ s.channelTypes body
termination_by p => sizeOf p

end Store

end PiCalculus
