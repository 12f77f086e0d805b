import CommodoreBasic.Number.Decimal

/-!
# Numerals

How far a number reaches at the start of a text, and the number that VAL finds there.
-/

namespace CommodoreBasic.Numeral

/-- The length of the digits at the start, with one point among, before or after them unless a
point was seen already. -/
def mantissaLength (seenPoint : Bool) : List Char → Nat
  | [] => 0
  | c :: cs =>
    if c.isDigit then mantissaLength seenPoint cs + 1
    else if c == '.' && !seenPoint then mantissaLength true cs + 1
    else 0

/-- The number of digits at the start. -/
def digitsLength (cs : List Char) : Nat := (cs.takeWhile Char.isDigit).length

/-- The length of the exponent at the start: its mark, an optional sign and at least one digit. -/
def exponentLength : List Char → Nat
  | [] => 0
  | c :: cs =>
    if c == 'E' || c == 'e' then
      let sign := match cs with
        | '+' :: _ | '-' :: _ => 1
        | _ => 0
      match digitsLength (cs.drop sign) with
      | 0 => 0
      | digits => 1 + sign + digits
    else 0

/-- The length of the numeral at the start, zero if there is none. A point alone is a numeral. -/
def length (cs : List Char) : Nat :=
  match mantissaLength false cs with
  | 0 => 0
  | n => n + exponentLength (cs.drop n)

/-- The value of a numeral; a point alone is zero. -/
def value? (cs : List Char) : Option Float :=
  if cs == ['.'] then some 0 else Number.read? cs

/-- The number a text begins with: blanks and tabs are skipped wherever they stand, a sign may come
first, and what follows the numeral does not matter. -/
def leading? (cs : List Char) : Option Float :=
  let read (cs : List Char) : Option Float :=
    match length cs with
    | 0 => none
    | n => value? (cs.take n)
  match cs.filter fun c => c != ' ' && c != '\t' with
  | '-' :: cs => (read cs).map (- ·)
  | '+' :: cs => read cs
  | cs => read cs

end CommodoreBasic.Numeral
