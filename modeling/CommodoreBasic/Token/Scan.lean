import CommodoreBasic.Error
import CommodoreBasic.Text.WhiteSpace
import CommodoreBasic.Token.Crunch
import CommodoreBasic.Token.Numeral

/-!
# Scanning a line

A line is cut into tokens from the left. Each token takes a counted number of characters, at least
one, so scanning ends. After REM the rest of the line is one token; after DATA the text up to the
next colon outside quotation marks is one, unless it is all white space.
-/

namespace CommodoreBasic.Token

/-- A blank or a tab. -/
def isBlank (c : Char) : Bool := c == ' ' || c == '\t'

/-- How far a name goes on: over letters and digits up to the next crunched spelling, and over one
`$`, which ends it. -/
def nameLength : List Char → Nat
  | [] => 0
  | c :: cs =>
    if (crunch? (c :: cs)).isSome then 0
    else if c.isAlphanum then nameLength cs + 1
    else if c == '$' then 1
    else 0

/-- The length of the text of a DATA statement: up to the first colon outside quotation marks. -/
def dataLength (quoted : Bool) : List Char → Nat
  | [] => 0
  | c :: cs =>
    if c == ':' && !quoted then 0
    else dataLength (quoted != (c == Text.quotationMark)) cs + 1

/-- The text of `cs` in capitals. -/
def capitals (cs : List Char) : String := String.ofList (cs.map Char.toUpper)

/-- The token at the start of `c :: cs`, and how many characters of `cs` it takes beside `c`. -/
def next (c : Char) (cs : List Char) : Token × Nat :=
  if isBlank c then
    let n := (cs.takeWhile isBlank).length
    (blanks (n + 1), n)
  else if c.isDigit || c == '.' then
    let n := Numeral.length (c :: cs) - 1
    (numeral (capitals (c :: cs.take n)), n)
  else if c == Text.quotationMark then
    let text := cs.takeWhile (· != Text.quotationMark)
    (quoted (String.ofList text), min (text.length + 1) cs.length)
  else match crunch? (c :: cs) with
    | some (n, t) => (t, n - 1)
    | none =>
      if c.isAlpha then
        let n := nameLength cs
        (name (capitals (c :: cs.take n)), n)
      else (unknown (String.ofList [c]), 0)

/-- The token of a raw text, or none if the text is all white space. -/
def rawData (cs : List Char) : List Token :=
  if cs.all Text.isWhiteSpace then [] else [unknown (String.ofList cs)]

/-- All tokens of a text. -/
def scan : List Char → List Token
  | [] => []
  | c :: cs =>
    let (t, n) := next c cs
    let rest := cs.drop n
    if t = keyword .REM then
      if rest.isEmpty then [t] else [t, unknown (String.ofList rest)]
    else if t = keyword .DATA then
      let m := dataLength false rest
      t :: (rawData (rest.take m) ++ scan (rest.drop m))
    else t :: scan rest
termination_by cs => cs.length

/-- Drops blanks at the start and at the end, one token of them at each. -/
def trimBlanks (ts : List Token) : List Token :=
  let ts := match ts with
    | t :: rest => if t.isBlanks then rest else ts
    | [] => []
  match ts.getLast? with
  | some t => if t.isBlanks then ts.dropLast else ts
  | none => ts

/-- A program line cut into its number, if it has one, and its tokens. -/
structure Scanned where
  number : Option LineNumber
  tokens : List Token

/-- The number in front of a line, and what follows it. White space may precede the number; digits
above the greatest line number are not one. -/
def splitNumber (cs : List Char) : Option LineNumber × List Char :=
  let line := Text.trimStart cs
  let digits := line.takeWhile Char.isDigit
  let n := Decimal.ofDigits digits
  if !digits.isEmpty && n ≤ LineNumber.greatest then (some n, line.drop digits.length)
  else (none, cs)

/-- Cuts a line into its number and its tokens. -/
def scanLine (cs : List Char) : Scanned :=
  let (number, rest) := splitNumber (Text.dropEndWhile Text.isLineEnd cs)
  ⟨number, trimBlanks (scan rest)⟩

end CommodoreBasic.Token
