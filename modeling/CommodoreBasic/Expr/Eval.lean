import CommodoreBasic.Request

/-!
# Evaluating expressions

Operands, subscripts and arguments are evaluated from left to right, and the first failure ends the
evaluation.
-/

namespace CommodoreBasic

namespace Expr

variable {σ : Type} (h : Handler σ)

mutual

/-- The value of an expression. -/
def eval : Expr → Action σ Value
  | .literal v => pure v
  | .scalar n => h .value (.fetch n)
  | .element n es => do
    let vs ← evalAll es
    h .value (.fetchElement n vs)
  | .unary op e => do
    let v ← eval e
    Action.ofExcept (op.apply v)
  | .binary op l r => do
    let v ← eval l
    let w ← eval r
    Action.ofExcept (op.apply v w)
  | .comparison rel l r => do
    let v ← eval l
    let w ← eval r
    Action.ofExcept (Value.compare rel v w)
  | .call c es => do
    let vs ← evalAll es
    h .value (.call c vs)

/-- The values of expressions. -/
def evalAll : List Expr → Action σ (List Value)
  | [] => pure []
  | e :: es => do
    let v ← eval e
    let vs ← evalAll es
    return v :: vs

end

/-- The value of an expression that must be a number. -/
def evalNumber (e : Expr) : Action σ Float := do
  let v ← eval h e
  Action.ofExcept v.toNumber

end Expr

/-- Stores a value in a target. -/
def Target.store {σ : Type} (h : Handler σ) (v : Value) : Target → Action σ Unit
  | .scalar n => h .done (.store n v)
  | .element n es => do
    let vs ← Expr.evalAll h es
    h .done (.storeElement n vs v)

end CommodoreBasic
