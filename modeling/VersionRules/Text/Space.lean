/-!
# White space

White space separates the words of a rule and of a qualifier value, and is dropped at the ends of
a value. It is the Unicode property `White_Space`, so a no-break or an ideographic space counts,
and a zero width space does not.

## Main definitions

* `Text.isSpace` — the characters with the property
* `Text.trim` — a text without the white space at its ends
* `Text.words` — the maximal runs of other characters
-/

namespace VersionRules.Text

/-- The characters with the Unicode property `White_Space`. -/
def isSpace (c : Char) : Bool :=
  let n := c.toNat
  (0x09 ≤ n && n ≤ 0x0D) || n == 0x20 || n == 0x85 || n == 0xA0 || n == 0x1680 ||
    (0x2000 ≤ n && n ≤ 0x200A) || n == 0x2028 || n == 0x2029 || n == 0x202F || n == 0x205F ||
    n == 0x3000

/-- A text without the white space at its end. -/
def trimEnd (cs : List Char) : List Char :=
  (cs.reverse.dropWhile isSpace).reverse

/-- A text without the white space at its ends. -/
def trim (cs : List Char) : List Char :=
  trimEnd (cs.dropWhile isSpace)

/-- The words of a text: its maximal runs of characters other than white space. -/
def words (cs : List Char) : List (List Char) :=
  (cs.splitOnP isSpace).filter (!·.isEmpty)

end VersionRules.Text
