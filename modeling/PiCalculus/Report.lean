import PiCalculus.Text.Point

/-! What a user is shown of a failure that concerns a stretch of the text. -/

namespace PiCalculus

/-- A stretch of the text, by offset and length, with a remark on it. -/
structure Report.Mark where
  offset : Nat
  length : Nat
  remark : Option String
deriving DecidableEq

structure Report where
  message : String
  help : Option String
  marks : List Report.Mark
deriving DecidableEq

end PiCalculus
