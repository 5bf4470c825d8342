/-!
# Blank characters

Two sets of blank characters and trimming by either of them. The Unicode property `White_Space`
has 25 members; labels are trimmed of those and of the four information separators.
-/

namespace Lineage.Text

/-! ## The sets -/

/-- A character with the Unicode property `White_Space`. -/
def isSpace (c : Char) : Bool :=
  let n := c.toNat
  (0x09 ≤ n && n ≤ 0x0D) || n == 0x20 || n == 0x85 || n == 0xA0 || n == 0x1680 ||
    (0x2000 ≤ n && n ≤ 0x200A) || n == 0x2028 || n == 0x2029 || n == 0x202F || n == 0x205F ||
    n == 0x3000

/-- White space, or one of the four information separators U+001C to U+001F. -/
def isBlank (c : Char) : Bool :=
  isSpace c || (0x1C ≤ c.toNat && c.toNat ≤ 0x1F)

/-! ## Trimming -/

/-- Drops the leading and the trailing run of characters that satisfy `p`. -/
def trim (p : Char → Bool) (s : List Char) : List Char :=
  (((s.dropWhile p).reverse).dropWhile p).reverse

def strip (s : List Char) : List Char :=
  trim isBlank s

end Lineage.Text
