import CommodoreBasic.Expr

/-!
# Statements

The syntax of statements.
-/

namespace CommodoreBasic

/-- The two ways to go to a line: for good, or to come back from it. -/
inductive Jump where
  | goto
  | gosub
deriving DecidableEq, Repr

/-- A statement. -/
inductive Statement where
  /-- LET, with the word or without it. -/
  | assign (target : Target) (value : Expr)
  /-- DATA, whose items are constants. -/
  | data (items : List Value)
  /-- DEF: the function's full name, its parameter and its body. -/
  | define (function : String) (parameter : Name) (body : Expr)
  /-- DIM: the arrays and the greatest subscripts of each. -/
  | dimension (arrays : List (Name × List Expr))
  /-- END. -/
  | finish
  /-- FOR. -/
  | loop (counter : Name) (start limit : Expr) (step : Option Expr)
  /-- GOTO and GOSUB. -/
  | jump (jump : Jump) (line : LineNumber)
  /-- IF, which passes over the rest of its line if the condition fails. -/
  | ifThen (condition : Expr) (consequent : Statement)
  | input (prompt : Option String) (targets : List Target)
  | next (counter : Option Name)
  /-- ON, which goes to the line that the selector counts out. -/
  | on (selector : Expr) (jump : Jump) (lines : List LineNumber)
  /-- PRINT, and whether it ends the line. -/
  | print (items : List Expr) (newline : Bool)
  | read (targets : List Target)
  | remark
  | restore (line : Option LineNumber)
  /-- RETURN. -/
  | comeBack
  | run (line : Option LineNumber)
  | stop

instance : Inhabited Statement := ⟨.remark⟩

namespace Statement

/-- The statement under any number of IFs. -/
def stripIfs : Statement → Statement
  | ifThen _ s => s.stripIfs
  | s => s

/-- The items of a DATA statement, also of one under IFs. -/
def dataItems : Statement → List Value
  | data items => items
  | ifThen _ s => s.dataItems
  | _ => []

/-- The statement is INPUT. -/
def isInput : Statement → Bool
  | input .. => true
  | _ => false

end Statement

end CommodoreBasic
