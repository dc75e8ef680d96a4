/-!
# Blanks

The characters that separate words are those with the White_Space property of
Unicode: controls 9 to 13, the space, and the wider or narrower spaces and
line ends of other blocks. Zero-width joiners and the information separators
are not among them.
-/
namespace ChartParser.Text

def isBlank (c : Char) : Bool :=
  let n := c.toNat
  (0x09 ≤ n && n ≤ 0x0D) || n == 0x20 || n == 0x85 || n == 0xA0 || n == 0x1680 ||
    (0x2000 ≤ n && n ≤ 0x200A) || n == 0x2028 || n == 0x2029 || n == 0x202F || n == 0x205F ||
    n == 0x3000

/-- The longest runs of non-blank characters. -/
def words (cs : List Char) : List (List Char) :=
  (cs.splitOnP isBlank).filter (!·.isEmpty)

end ChartParser.Text
