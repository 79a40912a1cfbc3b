/-!
White space, in the sense of the property White_Space, and what is found between it.
-/

namespace AsyncSpread.Text

def isBlank (c : Char) : Bool :=
  let n := c.toNat
  (9 ≤ n && n ≤ 13) || n == 0x20 || n == 0x85 || n == 0xA0 || n == 0x1680
    || (0x2000 ≤ n && n ≤ 0x200A) || n == 0x2028 || n == 0x2029 || n == 0x202F || n == 0x205F
    || n == 0x3000

def trimLeft (cs : List Char) : List Char := cs.dropWhile isBlank

def trimRight (cs : List Char) : List Char := (cs.reverse.dropWhile isBlank).reverse

def trim (cs : List Char) : List Char := trimRight (trimLeft cs)

/-- The first run of characters that are not blank, if there is one. -/
def firstWord? (cs : List Char) : Option (List Char) :=
  match (trimLeft cs).takeWhile fun c => !isBlank c with
  | [] => none
  | w => some w

end AsyncSpread.Text
