import PiCalculus.Text.Extending
import PiCalculus.Text.Unassigned

/-! The characters that cannot be told by sight: those that show nothing, and those that join the
character before them. -/

namespace PiCalculus

/-- Controls, formats, fillers, private characters, and spaces other than the blank, by first and
last, in order. -/
def invisibleRanges : List (Nat × Nat) := [
  (0x0, 0x1F), (0x7F, 0xA0), (0xAD, 0xAD), (0x600, 0x605), (0x61C, 0x61C), (0x6DD, 0x6DD),
  (0x70F, 0x70F), (0x890, 0x891), (0x8E2, 0x8E2), (0x115F, 0x1160), (0x1680, 0x1680),
  (0x180E, 0x180E), (0x2000, 0x200F), (0x2028, 0x202F), (0x205F, 0x2064), (0x2066, 0x206F),
  (0x3000, 0x3000), (0x3164, 0x3164), (0xD800, 0xF8FF), (0xFEFF, 0xFEFF), (0xFFA0, 0xFFA0),
  (0xFFF9, 0xFFFB), (0x110BD, 0x110BD), (0x110CD, 0x110CD), (0x13430, 0x1343F), (0x1BCA0, 0x1BCA3),
  (0x1D173, 0x1D17A), (0xE0001, 0xE0001), (0xE0020, 0xE007F), (0xF0000, 0xFFFFD),
  (0x100000, 0x10FFFD)]

def isUnprintable (c : Char) : Bool :=
  let inside := fun (low, high) => low ≤ c.toNat && c.toNat ≤ high
  invisibleRanges.any inside || extendingRanges.any inside || unassignedRanges.any inside

end PiCalculus
