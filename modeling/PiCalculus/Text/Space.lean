/-! White space in the sense of Unicode, where typed lines are cut. -/

namespace PiCalculus

/-- The characters with the property `White_Space`. -/
def isSpace (c : Char) : Bool :=
  let n := c.toNat
  (9 ≤ n && n ≤ 13) || n == 0x20 || n == 0x85 || n == 0xA0 || n == 0x1680
    || (0x2000 ≤ n && n ≤ 0x200A) || n == 0x2028 || n == 0x2029 || n == 0x202F || n == 0x205F
    || n == 0x3000

def trim (text : String) : String :=
  let text := text.toList.dropWhile isSpace
  String.ofList (text.reverse.dropWhile isSpace).reverse

/-- The first word of a text, and the trimmed text behind it. -/
def firstWord (text : String) : String × String :=
  let text := text.toList.dropWhile isSpace
  (String.ofList (text.takeWhile (!isSpace ·)),
    trim (String.ofList (text.dropWhile (!isSpace ·))))

end PiCalculus
