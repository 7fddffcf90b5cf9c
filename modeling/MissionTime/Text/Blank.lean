/-! Blank characters and the trimming and splitting that they define. The blanks are the characters
with the Unicode property White_Space; the grammar of formulas separates its tokens by fewer of them. -/
namespace MissionTime.Text

def isBlank (c : Char) : Bool :=
  let n := c.toNat
  (0x9 ≤ n && n ≤ 0xD) || n == 0x20 || n == 0x85 || n == 0xA0 || n == 0x1680 ||
    (0x2000 ≤ n && n ≤ 0x200A) || n == 0x2028 || n == 0x2029 || n == 0x202F || n == 0x205F || n == 0x3000

def trimStart (text : List Char) : List Char := text.dropWhile isBlank

def trimEnd (text : List Char) : List Char := (text.reverse.dropWhile isBlank).reverse

def trim (text : List Char) : List Char := trimEnd (trimStart text)

def words (text : List Char) : List (List Char) :=
  (text.splitOnP isBlank).filter (!·.isEmpty)

/-- The pieces between line feeds; there is always at least one. -/
def lines (text : String) : List String :=
  (text.toList.splitOn '\n').map String.ofList

end MissionTime.Text
