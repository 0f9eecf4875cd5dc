/-! What the passes tell while they work. -/

namespace PiCalculus

inductive Event
  /-- A restriction hides another name of its label. -/
  | rebinding (label : String)
  /-- A received variable hides a name of its label. -/
  | shadowing (label : String)
  | communication (label : String)
  | droppedRestriction (label : String)
  /-- So many steps have been taken, and the process now reads so. -/
  | reduced (calculi : String) (steps : Nat)
deriving DecidableEq

namespace Event

/-- Whether the event should be heeded even if nobody asked for details. -/
def isWarning : Event → Bool
  | rebinding _ | shadowing _ => true
  | _ => false

def text : Event → String
  | rebinding label => "rebinding `" ++ label ++ "` in restriction"
  | shadowing label => "variable `" ++ label ++ "` shadows an outer name"
  | communication label => "communication on `" ++ label ++ "`"
  | droppedRestriction label => "dropping unused restriction `" ++ label ++ "`"
  | reduced calculi steps => "reduced to " ++ calculi ++ " step=" ++ toString steps

/-- The line of the event in a log, from where it comes if that is told. -/
def render (e : Event) (origin : String) : String :=
  (if e.isWarning then "WARN " else "DEBUG ") ++ origin ++ e.text

end Event

end PiCalculus
