import PiCalculus.Process.Basic

/-! The texts of a process whose names are texts already. -/

namespace PiCalculus.Process

/-- The process as it is written in the calculus. Compositions stand in parentheses. -/
def render : Process String → String
  | nil => "0"
  | send chan values => chan ++ "<" ++ ",".intercalate values ++ ">"
  | receive chan vars body => chan ++ "(" ++ ",".intercalate vars ++ ")." ++ body.render
  | par ps => "(" ++ " | ".intercalate (ps.map render) ++ ")"
  | replicate body => "!" ++ body.render
  | restrict name body => "(new " ++ name ++ ")" ++ body.render
termination_by p => sizeOf p

/-- A new line for every node but one that stands at the margin, with two blanks for each level. -/
def newLine (level : Nat) : String :=
  (if level = 0 then "" else "\n") ++ String.ofList (List.replicate (2 * level) ' ')

/-- The process as a tree, each subprocess on a line of its own one level further in. -/
def pretty (level : Nat) : Process String → String
  | nil => newLine level ++ "0"
  | send chan values => newLine level ++ "send " ++ chan ++ "<" ++ ",".intercalate values ++ ">"
  | receive chan vars body =>
    newLine level ++ "recv " ++ chan ++ "(" ++ ",".intercalate vars ++ ")."
      ++ body.pretty (level + 1)
  | par ps => newLine level ++ "par" ++ String.join (ps.map (pretty (level + 1)))
  | replicate body => newLine level ++ "repeat" ++ body.pretty (level + 1)
  | restrict name body => newLine level ++ "new " ++ name ++ body.pretty (level + 1)
termination_by p => sizeOf p

/-- The process by its constructors and names. -/
def inspect : Process String → String
  | nil => "Inaction"
  | send chan values => "Send(" ++ inspectName chan ++ ", " ++ inspectNames values ++ ")"
  | receive chan vars body =>
    "Receive(" ++ inspectName chan ++ ", " ++ inspectNames vars ++ ", " ++ body.inspect ++ ")"
  | par ps => "Parallel([" ++ ", ".intercalate (ps.map inspect) ++ "])"
  | replicate body => "Replicate(" ++ body.inspect ++ ")"
  | restrict name body => "Restrict(" ++ inspectName name ++ ", " ++ body.inspect ++ ")"
termination_by p => sizeOf p
where
  inspectName (name : String) : String := "Name(" ++ name ++ ")"
  inspectNames (names : List String) : String :=
    "[" ++ ", ".intercalate (names.map inspectName) ++ "]"

end PiCalculus.Process
