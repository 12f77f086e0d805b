import CommodoreBasic.Statement

/-!
# The nodes of a statement

All statements, targets and expressions in a statement, each after its parts and the parts from left
to right.
-/

namespace CommodoreBasic

/-- A node of the syntax tree. -/
inductive Node where
  | statement (s : Statement)
  | target (t : Target)
  | expression (e : Expr)

/-- The expressions whose values an expression needs, in the order of their evaluation. -/
def Expr.operands : Expr → List Expr
  | .literal _ | .scalar _ => []
  | .element _ es | .call _ es => es
  | .unary _ e => [e]
  | .binary _ l r | .comparison _ l r => [l, r]

mutual

/-- The nodes of an expression. -/
def Expr.nodes : Expr → List Node
  | .literal v => [.expression (.literal v)]
  | .scalar n => [.expression (.scalar n)]
  | .element n es => Expr.nodesOfAll es ++ [.expression (.element n es)]
  | .unary op e => e.nodes ++ [.expression (.unary op e)]
  | .binary op l r => l.nodes ++ r.nodes ++ [.expression (.binary op l r)]
  | .comparison rel l r => l.nodes ++ r.nodes ++ [.expression (.comparison rel l r)]
  | .call c es => Expr.nodesOfAll es ++ [.expression (.call c es)]

/-- The nodes of expressions, one expression after the other. -/
def Expr.nodesOfAll : List Expr → List Node
  | [] => []
  | e :: es => e.nodes ++ Expr.nodesOfAll es

end

/-- The nodes of a target. -/
def Target.nodes : Target → List Node
  | .scalar n => [.target (.scalar n)]
  | .element n es => Expr.nodesOfAll es ++ [.target (.element n es)]

/-- The nodes of a statement. The target of an assignment is part of the statement. -/
def Statement.nodes (s : Statement) : List Node :=
  match s with
  | .assign (.scalar _) e => e.nodes ++ [.statement s]
  | .assign (.element _ es) e => Expr.nodesOfAll es ++ e.nodes ++ [.statement s]
  | .data items => items.map (fun v => .expression (.literal v)) ++ [.statement s]
  | .define _ _ e => e.nodes ++ [.statement s]
  | .dimension arrays => arrays.flatMap (fun (n, es) => (Target.element n es).nodes) ++ [.statement s]
  | .loop _ start limit step =>
    start.nodes ++ limit.nodes ++ (step.map Expr.nodes).getD [] ++ [.statement s]
  | .ifThen e consequent => e.nodes ++ consequent.nodes ++ [.statement s]
  | .input _ targets => targets.flatMap Target.nodes ++ [.statement s]
  | .on e _ _ => e.nodes ++ [.statement s]
  | .print es _ => Expr.nodesOfAll es ++ [.statement s]
  | .read targets => targets.flatMap Target.nodes ++ [.statement s]
  | _ => [.statement s]

end CommodoreBasic
