import CommodoreBasic.Error
import CommodoreBasic.Name
import CommodoreBasic.Number.Shortest
import CommodoreBasic.Number.Whole

/-!
# Values

Every variable, array element, DATA item and intermediate result is a number or a text.
-/

namespace CommodoreBasic

/-- A number or a text. -/
inductive Value where
  | number (x : Float)
  | text (s : String)
deriving DecidableEq, Repr

namespace Value

/-- What a variable holds before anything is stored in it. -/
def zeroFor (n : Name) : Value := if n.isText then .text "" else .number 0

instance : Inhabited Value := ⟨.number 0⟩

/-- Whether the value is text. -/
def isText : Value → Bool
  | .number _ => false
  | .text _ => true

/-- The value may be stored under the name `n`. -/
def fits (v : Value) (n : Name) : Bool := v.isText == n.isText

/-- A condition holds for every number but zero and for every text but the empty one. -/
def isTrue : Value → Bool
  | .number x => x != 0
  | .text s => s != ""

/-- Conditions are -1 and 0, so that the bitwise operators are the logical ones. -/
def ofBool (b : Bool) : Value := .number (if b then -1 else 0)

/-- What PRINT shows: both zeros are written alike. -/
def shown : Value → String
  | .text s => s
  | .number x => if x == 0 then "0" else Number.text x

/-- The number, if the value is one. -/
def toNumber : Value → Except Error Float
  | .number x => .ok x
  | .text _ => raise .typeMismatch

/-- The text, if the value is one. -/
def toText : Value → Except Error String
  | .text s => .ok s
  | .number _ => raise .typeMismatch

/-- The number rounded down to a signed word of 16 bits. Not-a-number counts as zero. -/
def toWord (v : Value) : Except Error Int16 := do
  let x ← v.toNumber
  if x.isNaN then return 0
  match Number.floor? x with
  | some n =>
    if -32768 ≤ n ∧ n ≤ 32767 then return Int16.ofInt n
    raise .illegalQuantity
  | none => raise .illegalQuantity

/-- The number rounded down to 0 … 255. -/
def toByte (v : Value) : Except Error Nat := do
  match Number.floor? (← v.toNumber) with
  | some n =>
    if 0 ≤ n ∧ n ≤ 255 then return n.toNat
    raise .illegalQuantity
  | none => raise .illegalQuantity

/-- The number as a subscript or an array bound: whole, and 0 … 65535. -/
def toSubscript (v : Value) : Except Error Nat := do
  let x ← v.toNumber
  match Number.floor? x with
  | some n =>
    if Number.isWhole x ∧ 0 ≤ n ∧ n ≤ 65535 then return n.toNat
    raise .illegalQuantity
  | none => raise .illegalQuantity

/-- The zero of a name may be stored under it. -/
@[simp] theorem zeroFor_fits (n : Name) : (zeroFor n).fits n = true := by
  cases h : n.isText <;> simp [zeroFor, fits, isText, h]

end Value

end CommodoreBasic
