/-!
# The built-in functions

Their names and how many arguments each takes. What they compute is with `Builtin.apply`.
-/

namespace CommodoreBasic

/-- The built-in functions. -/
inductive Builtin where
  | abs | asc | atn | chr | cos | exp | fre | int | left | len | log
  | mid | right | rnd | sgn | sin | spc | sqr | str | tan | val
deriving DecidableEq, Repr

namespace Builtin

/-- The name a program calls the function by. -/
def name : Builtin → String
  | abs => "ABS"
  | asc => "ASC"
  | atn => "ATN"
  | chr => "CHR$"
  | cos => "COS"
  | exp => "EXP"
  | fre => "FRE"
  | int => "INT"
  | left => "LEFT$"
  | len => "LEN"
  | log => "LOG"
  | mid => "MID$"
  | right => "RIGHT$"
  | rnd => "RND"
  | sgn => "SGN"
  | sin => "SIN"
  | spc => "SPC"
  | sqr => "SQR"
  | str => "STR$"
  | tan => "TAN"
  | val => "VAL"

/-- All built-in functions. -/
def all : List Builtin :=
  [abs, asc, atn, chr, cos, exp, fre, int, left, len, log,
   mid, right, rnd, sgn, sin, spc, sqr, str, tan, val]

/-- The built-in function with this name, in capitals. -/
def ofName? (n : String) : Option Builtin := all.find? (·.name == n)

/-- The least and the greatest number of arguments. -/
def arity : Builtin → Nat × Nat
  | left | right => (2, 2)
  | mid => (2, 3)
  | _ => (1, 1)

/-- The list of all functions is complete. -/
theorem mem_all (f : Builtin) : f ∈ all := by cases f <;> decide

/-- The names tell the functions apart. -/
theorem ofName?_name (f : Builtin) : ofName? f.name = some f := by cases f <;> decide

end Builtin

end CommodoreBasic
