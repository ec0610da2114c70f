/-
  Blank characters: the 25 code points with the Unicode property White_Space.
-/

namespace DataMarks.Text

/-- The code points with the property White_Space, as ranges: the first one and how many there are. -/
def blankRanges : List (Nat × Nat) :=
  [(0x09, 5), (0x20, 1), (0x85, 1), (0xA0, 1), (0x1680, 1), (0x2000, 11), (0x2028, 2), (0x202F, 1),
   (0x205F, 1), (0x3000, 1)]

def isBlank (c : Char) : Bool :=
  blankRanges.any fun (first, count) => first ≤ c.toNat && c.toNat < first + count

end DataMarks.Text
