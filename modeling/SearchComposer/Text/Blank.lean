/-!
# Blank characters

The blanks of Unicode (the property `White_Space`), and trimming by them. Trimming removes blanks
at the ends only: what is left starts and ends with a character that is no blank.
-/

namespace SearchComposer.Text

/-- Whether a character has the property `White_Space`. -/
def isBlank (c : Char) : Bool :=
  let n := c.val.toNat
  (0x09 ≤ n && n ≤ 0x0D) || n == 0x20 || n == 0x85 || n == 0xA0 || n == 0x1680 ||
    (0x2000 ≤ n && n ≤ 0x200A) || n == 0x2028 || n == 0x2029 || n == 0x202F || n == 0x205F ||
    n == 0x3000

/-- The text without the blanks it starts with. -/
def trimStart (cs : List Char) : List Char :=
  cs.dropWhile isBlank

/-- The text without the blanks it ends with. -/
def trimEnd (cs : List Char) : List Char :=
  (cs.reverse.dropWhile isBlank).reverse

/-- The text without the blanks at its ends. -/
def trim (s : String) : String :=
  String.ofList (trimEnd (trimStart s.toList))

end SearchComposer.Text
