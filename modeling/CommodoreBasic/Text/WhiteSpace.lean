/-!
# White space and punctuation

The characters that count as white space at the ends of a line, of a field and of a printed item,
and the punctuation marks that need no blank beside a number. BASIC itself separates tokens by
blanks and tabs only; that narrower class is with the tokens.
-/

namespace CommodoreBasic.Text

/-- The characters with the Unicode property `White_Space`. -/
def isWhiteSpace (c : Char) : Bool :=
  let n := c.toNat
  (0x09 ≤ n && n ≤ 0x0D) || n == 0x20 || n == 0x85 || n == 0xA0 || n == 0x1680 ||
    (0x2000 ≤ n && n ≤ 0x200A) || n == 0x2028 || n == 0x2029 || n == 0x202F || n == 0x205F ||
    n == 0x3000

/-- The printable ASCII characters that are neither letters nor digits nor the blank. -/
def isPunctuation (c : Char) : Bool :=
  let n := c.toNat
  (0x21 ≤ n && n ≤ 0x2F) || (0x3A ≤ n && n ≤ 0x40) || (0x5B ≤ n && n ≤ 0x60) ||
    (0x7B ≤ n && n ≤ 0x7E)

/-- The characters from the first that is not white space on. -/
def trimStart (cs : List Char) : List Char := cs.dropWhile isWhiteSpace

/-- Drops the characters with property `p` from the end. -/
def dropEndWhile (p : Char → Bool) (cs : List Char) : List Char :=
  (cs.reverse.dropWhile p).reverse

/-- The characters without white space at either end. -/
def trim (cs : List Char) : List Char := dropEndWhile isWhiteSpace (trimStart cs)

/-- A carriage return or a line feed. -/
def isLineEnd (c : Char) : Bool := c == '\r' || c == '\n'

/-- The double quotation mark. -/
def quotationMark : Char := '\"'

end CommodoreBasic.Text
