import PiCalculus.Text.Quoted
import PiCalculus.Ty.Basic

/-! A type by its constructors. -/

namespace PiCalculus

/-- The type by its constructors, where references are not followed but named. -/
def Ty.inspect {ρ : Type} (target : ρ → String) : Ty ρ → String
  | untyped => "Untyped"
  | base label => "Base(" ++ quote label ++ ")"
  | chan t => "Chan(" ++ t.inspect target ++ ")"
  | composite ts => "Composite([" ++ ", ".intercalate (ts.map (inspect target)) ++ "])"
  | reference n => "Reference(&" ++ target n ++ ")"
termination_by t => sizeOf t

end PiCalculus
