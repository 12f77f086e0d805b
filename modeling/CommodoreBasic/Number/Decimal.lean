/-!
# Reading decimals

A decimal is a whole number of digits times a power of ten, and stands for the floating number
nearest to it. `Number.read?` reads a whole text as a number: an optional sign, then digits with an
optional point and an optional exponent, or the name of an infinity or of not-a-number.
-/

namespace CommodoreBasic

/-- The value `digits * 10 ^ exponent`. -/
structure Decimal where
  digits : Nat
  exponent : Int
deriving DecidableEq, Repr

namespace Decimal

/-- The floating number nearest to a decimal, a tie going to the even one; infinite beyond the
greatest. -/
def toFloat (d : Decimal) : Float :=
  Float.ofScientific d.digits (decide (d.exponent < 0)) d.exponent.natAbs

/-- The value of a row of decimal digits. -/
def ofDigits (cs : List Char) : Nat :=
  cs.foldl (fun n c => 10 * n + (c.toNat - '0'.toNat)) 0

/-- The value of a signed row of digits which must not be empty: the part of a decimal after its
exponent mark. -/
def exponent? (cs : List Char) : Option Int :=
  let (negative, ds) := match cs with
    | '-' :: ds => (true, ds)
    | '+' :: ds => (false, ds)
    | ds => (false, ds)
  if ds.isEmpty || !ds.all Char.isDigit then none
  else some (if negative then -(ofDigits ds : Int) else ofDigits ds)

/-- Reads all of `cs` as digits with an optional point among, before or after them, followed by an
optional exponent. There must be a digit before the exponent. -/
def read? (cs : List Char) : Option Decimal :=
  let whole := cs.takeWhile Char.isDigit
  let (places, rest) := match cs.dropWhile Char.isDigit with
    | '.' :: rest => (rest.takeWhile Char.isDigit, rest.dropWhile Char.isDigit)
    | rest => ([], rest)
  if whole.isEmpty && places.isEmpty then none
  else
    let shift : Option Int := match rest with
      | [] => some 0
      | c :: rest => if c == 'e' || c == 'E' then exponent? rest else none
    shift.map fun e => ⟨ofDigits (whole ++ places), e - places.length⟩

end Decimal

namespace Number

/-- Positive infinity. -/
def infinity : Float := 1.0 / 0.0

/-- The value that is no number. -/
def notANumber : Float := 0.0 / 0.0

/-- Reads all of `cs` as a number without a sign. -/
def readUnsigned? (cs : List Char) : Option Float :=
  let word := String.ofList (cs.map Char.toLower)
  if word == "inf" || word == "infinity" then some infinity
  else if word == "nan" then some notANumber
  else (Decimal.read? cs).map Decimal.toFloat

/-- Reads all of `cs` as a number with an optional sign. -/
def read? (cs : List Char) : Option Float :=
  match cs with
  | '-' :: cs => (readUnsigned? cs).map (- ·)
  | '+' :: cs => readUnsigned? cs
  | cs => readUnsigned? cs

/-- Reads all of `cs` as a finite number. -/
def readFinite? (cs : List Char) : Option Float :=
  (read? cs).filter Float.isFinite

end Number

end CommodoreBasic
