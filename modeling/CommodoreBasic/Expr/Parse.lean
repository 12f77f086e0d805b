import CommodoreBasic.Expr
import CommodoreBasic.Token.Numeral
import CommodoreBasic.Token

/-!
# Parsing expressions

Operators have levels from OR, which binds least, to `^`, which binds most; all of them group to
the left. An expression of a level holds operators of that level and above, outside parentheses.

The parser reads tokens without blanks and gives back what follows the expression. It recurses on a
bound for the depth of nesting; every two levels of depth take a token, so `Expr.fuel` is enough.
-/

namespace CommodoreBasic

/-- A parser reads from a list of tokens and gives back those that follow. -/
abbrev Parser (α : Type) := List Token → Except Error (α × List Token)

namespace Parser

/-- Reads the token `t` or fails with the complaint `c`. -/
def expect (t : Token) (c : Complaint) : Parser Unit
  | [] => throw (.complain c)
  | t' :: ts => if t' = t then .ok ((), ts) else throw (.complain c)

/-- Reads the name of a variable. -/
def variableName : Parser Name
  | .name n :: ts => .ok (n, ts)
  | _ => throw (.complain .expectedVariable)

end Parser

namespace Operator

/-- How tightly an operator binds what stands on both of its sides; NOT stands between nothing. -/
def level? : Operator → Option Nat
  | or => some 1
  | and => some 2
  | equal | notEqual | less | lessOrEqual | greater | greaterOrEqual => some 4
  | plus | minus => some 5
  | times | divide => some 6
  | power => some 8
  | not => none

/-- The expression of an operator between two others. -/
def combine (l r : Expr) : Operator → Expr
  | power => .binary .power l r
  | times => .binary .multiply l r
  | divide => .binary .divide l r
  | plus => .binary .add l r
  | minus => .binary .subtract l r
  | and => .binary .conjoin l r
  | or => .binary .disjoin l r
  | equal => .comparison .equal l r
  | notEqual => .comparison .notEqual l r
  | less => .comparison .less l r
  | lessOrEqual => .comparison .lessOrEqual l r
  | greater => .comparison .greater l r
  | greaterOrEqual => .comparison .greaterOrEqual l r
  | not => l

end Operator

namespace Expr

/-- The level of OR, that of a whole expression. -/
def lowestLevel : Nat := 1

/-- The level of the operand of NOT. -/
def complementLevel : Nat := 3

/-- The level of the operand of a sign. -/
def signLevel : Nat := 7

/-- The number that a numeral stands for. -/
def ofNumeral (text : String) : Except Error Expr :=
  match Numeral.value? text.toList with
  | some x => if x.isFinite then .ok (.literal (.number x)) else raise .overflow
  | none => throw (.complain .invalidNumber)

mutual

/-- An expression of the given level or above. -/
def parseLevel : (fuel level : Nat) → Parser Expr
  | 0, _, _ => throw (.complain .expectedExpression)
  | fuel + 1, level, ts => do
    let (left, ts) ← parseOperand fuel ts
    parseOperators fuel level left ts

/-- What an operator can stand next to: a literal, a variable, a call, an expression in parentheses,
or a sign or NOT with its operand. -/
def parseOperand : (fuel : Nat) → Parser Expr
  | 0, _ => throw (.complain .expectedExpression)
  | fuel + 1, ts =>
    match ts with
    | .leftParenthesis :: ts => do
      let (e, ts) ← parseLevel fuel lowestLevel ts
      let ((), ts) ← Parser.expect .rightParenthesis .expectedRightParenthesis ts
      return (e, ts)
    | .name n :: .leftParenthesis :: ts => do
      let (es, ts) ← parseArguments fuel ts
      return (.element n es, ts)
    | .name n :: ts => return (.scalar n, ts)
    | .builtin f :: ts => do
      let ((), ts) ← Parser.expect .leftParenthesis .expectedLeftParenthesis ts
      let (es, ts) ← parseArguments fuel ts
      return (.call (.builtin f) es, ts)
    | .keyword .FN :: ts => do
      let (n, ts) ← Parser.variableName ts
      let ((), ts) ← Parser.expect .leftParenthesis .expectedLeftParenthesis ts
      let (es, ts) ← parseArguments fuel ts
      return (.call (.user ("FN" ++ n)) es, ts)
    | .numeral s :: ts => return (← ofNumeral s, ts)
    | .quoted s :: ts => return (.literal (.text s), ts)
    | .operator .minus :: ts => do
      let (e, ts) ← parseLevel fuel signLevel ts
      return (.unary .negate e, ts)
    | .operator .plus :: ts => parseLevel fuel signLevel ts
    | .operator .not :: ts => do
      let (e, ts) ← parseLevel fuel complementLevel ts
      return (.unary .complement e, ts)
    | _ => throw (.complain .expectedExpression)

/-- The operators of at least the given level that follow `left`, with their right operands. A minus
sign right after `^` takes only what binds more tightly than `^`. -/
def parseOperators : (fuel level : Nat) → (left : Expr) → Parser Expr
  | 0, _, _, _ => throw (.complain .expectedExpression)
  | fuel + 1, level, left, ts =>
    match ts with
    | .operator op :: rest =>
      match op.level? with
      | none => return (left, ts)
      | some opLevel =>
        if opLevel < level then return (left, ts)
        else match op, rest with
          | .power, .operator .minus :: rest => do
            let (right, ts) ← parseLevel fuel (opLevel + 1) rest
            parseOperators fuel level (op.combine left (.unary .negate right)) ts
          | _, _ => do
            let (right, ts) ← parseLevel fuel (opLevel + 1) rest
            parseOperators fuel level (op.combine left right) ts
    | _ => return (left, ts)

/-- One or more expressions between commas, up to the right parenthesis. -/
def parseArguments : (fuel : Nat) → Parser (List Expr)
  | 0, _ => throw (.complain .expectedExpression)
  | fuel + 1, ts => do
    let (e, ts) ← parseLevel fuel lowestLevel ts
    match ts with
    | .rightParenthesis :: ts => return ([e], ts)
    | .comma :: ts => do
      let (es, ts) ← parseArguments fuel ts
      return (e :: es, ts)
    | _ => throw (.complain .expectedEndOrSeparator)

end

/-- A bound for the depth of nesting in an expression of these tokens. -/
def fuel (ts : List Token) : Nat := 3 * ts.length + 3

/-- Reads an expression. -/
def parse : Parser Expr := fun ts => parseLevel (fuel ts) lowestLevel ts

/-- Reads one or more expressions between commas, and the right parenthesis after them. -/
def parseList : Parser (List Expr) := fun ts => parseArguments (fuel ts) ts

end Expr

namespace Target

/-- Reads a variable, or an element of an array with its subscripts. -/
def parse : Parser Target
  | .name n :: .leftParenthesis :: ts => do
    let (es, ts) ← Expr.parseList ts
    return (.element n es, ts)
  | .name n :: ts => return (.scalar n, ts)
  | _ => throw (.complain .expectedVariable)

/-- Reads targets between commas, at most `count` of them. -/
def parseUpTo : (count : Nat) → Parser (List Target)
  | 0, _ => throw (.complain .expectedVariable)
  | count + 1, ts => do
    let (t, ts) ← parse ts
    match ts with
    | .comma :: ts => do
      let (rest, ts) ← parseUpTo count ts
      return (t :: rest, ts)
    | ts => return ([t], ts)

/-- Reads one or more targets between commas; there are no more of them than tokens. -/
def parseList : Parser (List Target) := fun ts => parseUpTo (ts.length + 1) ts

end Target

end CommodoreBasic
