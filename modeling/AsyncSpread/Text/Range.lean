/-!
Character classes as sorted lists of code point ranges.  A class is looked up far less often than
a text is scanned, and almost every scanned character is ASCII, so each class answers the ASCII
characters itself and only the rest is searched here.
-/

namespace AsyncSpread.Text

/-- Whether a code point lies in one of the ranges, ends included.  The ranges ascend, so the search
stops at the first range that begins above the code point. -/
def inRanges (n : Nat) : List (Nat × Nat) → Bool
  | [] => false
  | (lo, hi) :: rest => if n < lo then false else n ≤ hi || inRanges n rest

end AsyncSpread.Text
