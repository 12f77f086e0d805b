import CommodoreBasic.Number.Decimal

/-!
# The text of a number

A number is written with the fewest digits that read back as the same number, and among those with
the digits nearest to it. The search goes through the grids of multiples of `10 ^ p` from coarse to
fine, and on each grid tries the two neighbours of the number.

Numbers are always written out in full: no exponent, no point in a whole number, and a digit on
either side of a point.
-/

namespace CommodoreBasic

namespace Decimal

/-- The digits of a decimal in full, with as many zeros as its exponent asks for. -/
def text (d : Decimal) : String :=
  let ds := Nat.toDigits 10 d.digits
  let places := (-d.exponent).toNat
  if places = 0 then String.ofList (ds ++ List.replicate d.exponent.toNat '0')
  else if places < ds.length then
    String.ofList (ds.take (ds.length - places) ++ '.' :: ds.drop (ds.length - places))
  else String.ofList ('0' :: '.' :: (List.replicate (places - ds.length) '0' ++ ds))

end Decimal

namespace Number

/-- The multiple of `10 ^ p` that reads back as `x` and is nearest to it, where `x` is the fraction
`num / den`. Half way between two multiples the upper one is taken. -/
def onGrid? (x : Float) (num den : Nat) (p : Int) : Option Decimal :=
  let n := num * Nat.pow 10 (-p).toNat
  let d := den * Nat.pow 10 p.toNat
  let below : Decimal := ⟨n / d, p⟩
  let above : Decimal := ⟨n / d + 1, p⟩
  if below.toFloat == x && (2 * (n % d) < d || above.toFloat != x) then some below
  else if above.toFloat == x then some above
  else none

/-- The first hit on `count` grids from `10 ^ p` down. -/
def onGrids? (x : Float) (num den : Nat) : (count : Nat) → (p : Int) → Option Decimal
  | 0, _ => none
  | count + 1, p => (onGrid? x num den p).orElse fun _ => onGrids? x num den count (p - 1)

/-- The shortest decimal of the positive number `x`, which is `m * 2 ^ e`.

The search starts above the leading digit, as `log10 2` is below 0.30103, and 25 grids reach past
the seventeenth digit, with which every number reads back. The last resort is its exact value. -/
def shortest (x : Float) (m : Nat) (e : Int) : Decimal :=
  let num := m * Nat.pow 2 e.toNat
  let den := Nat.pow 2 (-e).toNat
  let start := (m.log2 + 1 + e) * 30103 / 100000 + 1
  match onGrids? x num den 25 start with
  | some d => d
  | none => if 0 ≤ e then ⟨num, 0⟩ else ⟨m * Nat.pow 5 (-e).toNat, e⟩

/-- The text of a number, sign included; the zero below zero keeps its sign. -/
def text (x : Float) : String :=
  match x.toModel.unpack with
  | .notANumber => "NaN"
  | .infinity .positive => "inf"
  | .infinity .negative => "-inf"
  | .zero .positive => "0"
  | .zero .negative => "-0"
  | .finite .positive m e _ => (shortest x m e).text
  | .finite .negative m e _ => "-" ++ (shortest x.abs m e).text

end Number

end CommodoreBasic
