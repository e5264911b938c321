/-
Blank characters and trimming. A character is blank when it has the Unicode White_Space property,
which is more than the blanks of ASCII: no-break spaces, the line and paragraph separators and the
ideographic space are blank too.
-/
namespace ObjectAction.Text

/-- The code points with the White_Space property, as inclusive ranges in ascending order. -/
def blankRanges : List (Nat × Nat) :=
  [(0x09, 0x0d), (0x20, 0x20), (0x85, 0x85), (0xa0, 0xa0), (0x1680, 0x1680), (0x2000, 0x200a),
    (0x2028, 0x2029), (0x202f, 0x202f), (0x205f, 0x205f), (0x3000, 0x3000)]

def isBlank (c : Char) : Bool :=
  blankRanges.any fun r => r.1 ≤ c.toNat && c.toNat ≤ r.2

example : (blankRanges.map fun r => r.2 + 1 - r.1).sum = 25 := by decide

/-- Drops the blanks at both ends. -/
def trim (cs : List Char) : List Char :=
  ((cs.dropWhile isBlank).reverse.dropWhile isBlank).reverse

/-- The first line of `cs` without the blanks around it. -/
def headline (cs : List Char) : List Char :=
  trim (cs.takeWhile (· ≠ '\n'))

end ObjectAction.Text
