/-!
# Whole parts of floating numbers

A finite floating number is a fraction whose denominator is a power of two. Floor, truncation and
the test for whole numbers are computed on that fraction in exact integer arithmetic.
-/

namespace CommodoreBasic.Number

/-- Numerator and denominator of a finite number; `none` for infinities and not-a-number. -/
def fraction? (x : Float) : Option (Int × Nat) :=
  match x.toModel.unpack with
  | .zero _ => some (0, 1)
  | .finite .positive m e _ => some (m * Nat.pow 2 e.toNat, Nat.pow 2 (-e).toNat)
  | .finite .negative m e _ => some (-m * Nat.pow 2 e.toNat, Nat.pow 2 (-e).toNat)
  | .infinity _ | .notANumber => none

/-- The greatest integer that is not above a finite number. -/
def floor? (x : Float) : Option Int :=
  (fraction? x).map fun (n, d) => n / (d : Int)

/-- A finite number without its fractional digits. -/
def truncate? (x : Float) : Option Int :=
  (fraction? x).map fun (n, d) => n.tdiv (d : Int)

/-- A finite number with no fractional digits. -/
def isWhole (x : Float) : Bool :=
  match fraction? x with
  | some (n, d) => n % (d : Int) == 0
  | none => false

/-- The greatest whole number that is not above `x`. A whole number, a zero of either sign, an
infinity and not-a-number are their own floor. -/
def floor (x : Float) : Float :=
  match floor? x with
  | some n => if isWhole x then x else Float.ofInt n
  | none => x

end CommodoreBasic.Number
