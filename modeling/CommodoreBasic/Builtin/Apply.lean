import CommodoreBasic.Action
import CommodoreBasic.Builtin
import CommodoreBasic.Random
import CommodoreBasic.Token.Numeral
import CommodoreBasic.Value.Arithmetic

/-!
# What the built-in functions compute

Counts of characters go from 0 to 255, and characters are counted as code points. Arguments are
looked at from left to right, so the first that does not suit decides the error.
-/

namespace CommodoreBasic.Builtin

/-- The bytes that FRE reports as free, those of a machine just switched on. -/
def freeBytes : Float := 38911

/-- How many characters MID$ takes if it is not told. -/
def greatestByte : Nat := 255

/-- The sign of a number as 1, 0 or -1. -/
def sign (x : Float) : Float := if x > 0 then 1 else if x < 0 then -1 else 0

/-- The text of a number with a column for its sign. -/
def signedText (x : Float) : String :=
  if x ≥ 0 then " " ++ (Value.number x).shown else (Value.number x).shown

/-- A function of a number whose result is taken as it is. -/
def onNumber (f : Float → Float) (v : Value) : Except Error Value :=
  return .number (f (← v.toNumber))

/-- The value of a function other than RND. -/
def evaluate : Builtin → List Value → Except Error Value
  | abs, [v] => onNumber Float.abs v
  | atn, [v] => onNumber Float.atan v
  | cos, [v] => onNumber Float.cos v
  | sin, [v] => onNumber Float.sin v
  | int, [v] => onNumber Number.floor v
  | sgn, [v] => onNumber sign v
  | exp, [v] => do Value.finite (Float.exp (← v.toNumber))
  | tan, [v] => do Value.finite (Float.tan (← v.toNumber))
  | fre, [_] => return .number freeBytes
  | log, [v] => do
    let x ← v.toNumber
    if x ≤ 0 then raise .illegalQuantity else return .number (Float.log x)
  | sqr, [v] => do
    let x ← v.toNumber
    if x < 0 then raise .illegalQuantity else return .number (Float.sqrt x)
  | len, [v] => return .number (← v.toText).toList.length.toUInt64.toFloat
  | asc, [v] => do
    match (← v.toText).toList with
    | c :: _ => return .number (Float.ofNat c.toNat)
    | [] => raise .illegalQuantity
  | val, [v] => return .number ((Numeral.leading? (← v.toText).toList).getD 0)
  | chr, [v] => return .text (String.ofList [Char.ofNat (← v.toByte)])
  | str, [v] => return .text (signedText (← v.toNumber))
  | spc, [v] => return .text (String.ofList (List.replicate (← v.toByte) ' '))
  | left, [v, w] => do
    let s ← v.toText
    let n ← w.toByte
    return .text (String.ofList (s.toList.take n))
  | right, [v, w] => do
    let s ← v.toText
    let n ← w.toByte
    return .text (String.ofList (s.toList.drop (s.toList.length - n)))
  | mid, v :: w :: rest => do
    let s ← v.toText
    let start ← w.toByte
    if start = 0 then raise .illegalQuantity
    let count ← match rest with
      | [] => pure greatestByte
      | u :: _ => u.toByte
    return .text (String.ofList ((s.toList.drop (start - 1)).take count))
  | _, _ => raise .syntaxError

/-- Calls a function. Only RND changes the generator of random numbers. -/
def apply (f : Builtin) (arguments : List Value) : Action Random Value :=
  if arguments.length < f.arity.1 ∨ f.arity.2 < arguments.length then raise .syntaxError
  else match f, arguments with
    | rnd, v :: _ => do
      let x ← Action.ofExcept v.toNumber
      fun g => let g := g.roll x; (.ok (.number g.last), g)
    | f, arguments => Action.ofExcept (f.evaluate arguments)

end CommodoreBasic.Builtin
