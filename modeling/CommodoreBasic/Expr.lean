import CommodoreBasic.Builtin
import CommodoreBasic.Value.Arithmetic

/-!
# Expressions

The syntax of expressions, of the operators in them and of what they may call.
-/

namespace CommodoreBasic

/-- The operators with one operand. -/
inductive UnaryOp where
  | negate | complement
deriving DecidableEq, Repr

/-- The operators with two operands that are no comparisons. -/
inductive BinaryOp where
  | add | subtract | multiply | divide | power | conjoin | disjoin
deriving DecidableEq, Repr

/-- What the operator makes of a value. -/
def UnaryOp.apply : UnaryOp → Value → Except Error Value
  | negate => Value.negate
  | complement => Value.complement

/-- What the operator makes of two values. -/
def BinaryOp.apply : BinaryOp → Value → Value → Except Error Value
  | add => Value.add
  | subtract => Value.subtract
  | multiply => Value.multiply
  | divide => Value.divide
  | power => Value.power
  | conjoin => Value.conjoin
  | disjoin => Value.disjoin

/-- What an expression may call: a built-in function, or one that the program defines, by its full
name. -/
inductive Callee where
  | builtin (function : Builtin)
  | user (name : String)
deriving DecidableEq, Repr

namespace Callee

/-- The full name. -/
def name : Callee → String
  | builtin f => f.name
  | user n => n

/-- What a name calls. The names that begin with FN belong to the program's own functions, whether
they are defined or not. -/
def ofName? (n : String) : Option Callee :=
  if "FN".toList.isPrefixOf n.toList then some (user n) else (Builtin.ofName? n).map builtin

end Callee

/-- An expression. -/
inductive Expr where
  | literal (value : Value)
  | scalar (name : Name)
  | element (name : Name) (subscripts : List Expr)
  | unary (op : UnaryOp) (operand : Expr)
  | binary (op : BinaryOp) (left right : Expr)
  | comparison (relation : Relation) (left right : Expr)
  | call (callee : Callee) (arguments : List Expr)

instance : Inhabited Expr := ⟨.literal default⟩

/-- What a value can be stored in: a variable or an element of an array. -/
inductive Target where
  | scalar (name : Name)
  | element (name : Name) (subscripts : List Expr)

/-- The name of the variable or the array. -/
def Target.name : Target → Name
  | scalar n => n
  | element n _ => n

end CommodoreBasic
