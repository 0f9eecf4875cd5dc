import PiCalculus.Labelling

/-! One communication: a send and a receive side by side on channels of one label. -/

namespace PiCalculus

/-- A send and a receive of one composition, each with its place in it. -/
structure Redex (ν : Type) where
  sender : Nat
  chan : ν
  values : List ν
  receiver : Nat
  vars : List ν
  body : Process ν

namespace Redex

variable {ν : Type}

/-- The composition after the communication, but for the values that take the place of the
variables: nothing is left of the send, and of the receive its continuation. -/
def contract (r : Redex ν) (ps : List (Process ν)) : List (Process ν) :=
  (ps.set r.sender .nil).set r.receiver r.body

def receivers (ps : List (Process ν)) : List (Nat × ν × List ν × Process ν) :=
  ps.zipIdx.filterMap fun
    | (.receive chan vars body, i) => some (i, chan, vars, body)
    | _ => none

def senders (ps : List (Process ν)) : List (Nat × ν × List ν) :=
  ps.zipIdx.filterMap fun
    | (.send chan values, i) => some (i, chan, values)
    | _ => none

/-- The first send whose channel has the label of a receive's channel, with the first such receive.
Only channels that are free to communicate count. -/
def find? (label : ν → String) (isFree : ν → Bool) (ps : List (Process ν)) : Option (Redex ν) :=
  let receivers := (receivers ps).filter fun (_, chan, _) => isFree chan
  ((senders ps).filter fun (_, chan, _) => isFree chan).findSome? fun (sender, chan, values) =>
    (receivers.find? fun (_, other, _) => label other = label chan).map
      fun (receiver, _, vars, body) => ⟨sender, chan, values, receiver, vars, body⟩

end Redex

/-- The way to the composition that is looked at for a communication. It leads through restrictions
and replications, and from a composition to the first one directly inside it. -/
def Process.focus? {ν : Type} : Process ν → Option (List Nat)
  | nil | send .. | receive .. => none
  | replicate body | restrict _ body => body.focus?.map (0 :: ·)
  | par ps =>
    let nested := ps.map fun p => if p.isPar then p.focus? else none
    some ((nested.zipIdx.findSome? fun (path?, i) => path?.map (i :: ·)).getD [])
termination_by p => sizeOf p

/-- A process after one communication, on the channel of the given label. -/
structure Reduct where
  process : Process Name
  store : Store
  chan : String

namespace Store

/-- Whether a name is one that can be communicated on now. -/
def isFreeName (s : Store) (n : Name) : Bool := s.sort n = .name

/-- The communication that is due in the process: its place and the two that take part. -/
def redex? (s : Store) (p : Process Name) :
    Option (List Nat × List (Process Name) × Redex Name) := do
  let path ← p.focus?
  match ← p.at? path with
  | .par ps => return (path, ps, ← Redex.find? s.label s.isFreeName ps)
  | _ => none

/-- Performs the communication that is due, if one is. It fails if not as many values are sent as
variables receive them. -/
def reduceOnce (s : Store) (p : Process Name) : Except Error (Option Reduct) :=
  match s.redex? p with
  | none => .ok none
  | some (path, ps, r) =>
    match s.substitute r.body (r.vars.map s.label) (r.values.map s.label) with
    | ⟨_, some e⟩ => .error e
    | ⟨t, none⟩ => .ok (some ⟨p.replaceAt path (.par (r.contract ps)), t, s.label r.chan⟩)

end Store

end PiCalculus
