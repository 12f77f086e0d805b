import CommodoreBasic.Text.WhiteSpace
import CommodoreBasic.Value

/-!
# Arithmetic on values

The operators on numbers and texts. A result that is not finite is an overflow. Only `+` and the
comparisons take texts: `+` joins them, or adds them if they read as numbers.
-/

namespace CommodoreBasic

/-- The comparisons. -/
inductive Relation where
  | equal | notEqual | less | greater | lessOrEqual | greaterOrEqual
deriving DecidableEq, Repr

/-- Whether a comparison holds of an ordering. Values that cannot be ordered are unequal and
nothing else. -/
def Relation.holds : Relation → Option Ordering → Bool
  | notEqual, none => true
  | _, none => false
  | equal, some o => o == .eq
  | notEqual, some o => o != .eq
  | less, some o => o == .lt
  | greater, some o => o == .gt
  | lessOrEqual, some o => o != .gt
  | greaterOrEqual, some o => o != .lt

namespace Value

/-- A number that must be finite. -/
def finite (x : Float) : Except Error Value :=
  if x.isFinite then .ok (.number x) else raise .overflow

/-- Changes the sign of a number. -/
def negate (v : Value) : Except Error Value :=
  return .number (- (← v.toNumber))

/-- The number that a text reads as, white space around it aside. -/
def numeric? (s : String) : Option Float := Number.readFinite? (Text.trim s.toList)

/-- Adds numbers and joins texts. Texts that both read as numbers are added, and so is a text that
reads as one to a number. -/
def add : Value → Value → Except Error Value
  | .number x, .number y => finite (x + y)
  | .text s, .text t =>
    match numeric? s, numeric? t with
    | some x, some y => finite (x + y)
    | _, _ => .ok (.text (s ++ t))
  | .number x, .text s | .text s, .number x =>
    match numeric? s with
    | some y => finite (x + y)
    | none => raise .typeMismatch

/-- The difference of two numbers. -/
def subtract (a b : Value) : Except Error Value := do
  finite ((← a.toNumber) - (← b.toNumber))

/-- The product of two numbers. -/
def multiply (a b : Value) : Except Error Value := do
  finite ((← a.toNumber) * (← b.toNumber))

/-- The quotient of two numbers. -/
def divide (a b : Value) : Except Error Value := do
  let x ← a.toNumber
  let y ← b.toNumber
  if y == 0 then raise .divisionByZero else finite (x / y)

/-- A power. A number below zero has whole powers only, and zero none below zero. -/
def power (a b : Value) : Except Error Value := do
  let x ← a.toNumber
  let y ← b.toNumber
  if x < 0 && !Number.isWhole y then raise .illegalQuantity
  else if x == 0 && y < 0 then raise .divisionByZero
  else finite (Float.pow x y)

/-- The number of a word. -/
def ofWord (w : Int16) : Value := .number (Float.ofInt w.toInt)

/-- Complements the 16 bits of a number. -/
def complement (v : Value) : Except Error Value :=
  return ofWord (~~~ (← v.toWord))

/-- Joins the 16 bits of two numbers by "and". -/
def conjoin (a b : Value) : Except Error Value := do
  let x ← a.toWord
  let y ← b.toWord
  return ofWord (x &&& y)

/-- Joins the 16 bits of two numbers by "or". -/
def disjoin (a b : Value) : Except Error Value := do
  let x ← a.toWord
  let y ← b.toWord
  return ofWord (x ||| y)

/-- How two numbers compare; not-a-number compares with nothing. -/
def compareNumbers (x y : Float) : Option Ordering :=
  if x < y then some .lt else if x == y then some .eq else if y < x then some .gt else none

/-- Compares two numbers, or two texts character by character. -/
def compare (r : Relation) : Value → Value → Except Error Value
  | .number x, .number y => .ok (ofBool (r.holds (compareNumbers x y)))
  | .text s, .text t => .ok (ofBool (r.holds (some (Ord.compare s t))))
  | _, _ => raise .typeMismatch

end Value

end CommodoreBasic
