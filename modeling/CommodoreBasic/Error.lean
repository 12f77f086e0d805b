/-!
# Errors

What can go wrong while a line is read or a program runs: a kind, the program line it happened in
and, for some syntax errors, what was expected there. `Error.message` words them all.
-/

namespace CommodoreBasic

/-- The number in front of a program line. -/
abbrev LineNumber := Nat

/-- The greatest number a program line may have. -/
def LineNumber.greatest : LineNumber := 63999

/-- The kinds of error. -/
inductive ErrorKind where
  | deviceNotPresent
  | nextWithoutFor
  | syntaxError
  | returnWithoutGosub
  | outOfData
  | illegalQuantity
  | overflow
  | outOfMemory
  | undefinedStatement
  | badSubscript
  | redimensionedArray
  | divisionByZero
  | typeMismatch
  | undefinedFunction
  | breakPressed
  | stackOverflow
  | infiniteLoop
  | forWithoutNext
  | inputPastEnd
deriving DecidableEq, Repr

namespace ErrorKind

/-- The number of an error: that of the machine's own table up to 30, and 40 and above for the
errors which that table does not have. -/
def number : ErrorKind → Nat
  | deviceNotPresent => 5
  | nextWithoutFor => 10
  | syntaxError => 11
  | returnWithoutGosub => 12
  | outOfData => 13
  | illegalQuantity => 14
  | overflow => 15
  | outOfMemory => 16
  | undefinedStatement => 17
  | badSubscript => 18
  | redimensionedArray => 19
  | divisionByZero => 20
  | typeMismatch => 22
  | undefinedFunction => 27
  | breakPressed => 30
  | stackOverflow => 40
  | infiniteLoop => 41
  | forWithoutNext => 42
  | inputPastEnd => 43

/-- The words for a kind of error. -/
def name : ErrorKind → String
  | deviceNotPresent => "DEVICE NOT PRESENT"
  | nextWithoutFor => "NEXT WITHOUT FOR"
  | syntaxError => "SYNTAX"
  | returnWithoutGosub => "RETURN WITHOUT GOSUB"
  | outOfData => "OUT OF DATA"
  | illegalQuantity => "ILLEGAL QUANTITY"
  | overflow => "OVERFLOW"
  | outOfMemory => "OUT OF MEMORY"
  | undefinedStatement => "UNDEF'D STATEMENT"
  | badSubscript => "BAD SUBSCRIPT"
  | redimensionedArray => "REDIM'D ARRAY"
  | divisionByZero => "DIVISION BY ZERO"
  | typeMismatch => "TYPE MISMATCH"
  | undefinedFunction => "UNDEF'D FUNCTION"
  | breakPressed => "BREAK"
  | stackOverflow => "STACK OVERFLOW"
  | infiniteLoop => "INFINITE LOOP"
  | forWithoutNext => "FOR WITHOUT NEXT"
  | inputPastEnd => "INPUT PAST END"

/-- The kinds of error in the order of their numbers. -/
def all : List ErrorKind :=
  [deviceNotPresent, nextWithoutFor, syntaxError, returnWithoutGosub, outOfData, illegalQuantity,
   overflow, outOfMemory, undefinedStatement, badSubscript, redimensionedArray, divisionByZero,
   typeMismatch, undefinedFunction, breakPressed, stackOverflow, infiniteLoop, forWithoutNext,
   inputPastEnd]

/-- The list of all kinds is complete. -/
theorem mem_all (k : ErrorKind) : k ∈ all := by cases k <;> decide

end ErrorKind

/-- What is wrong with a line that cannot be read. -/
inductive Complaint where
  | missingLineNumber
  | expectedLineNumber
  | invalidLineNumber
  | expectedStatement
  | expectedEndOfStatement
  | expectedExpression
  | expectedEndOrSeparator
  | expectedVariable
  | expectedReservedWord
  | expectedOperator
  | expectedLeftParenthesis
  | expectedRightParenthesis
  | expectedSemicolon
  | expectedThenOrGoto
  | expectedGotoOrGosub
  | invalidNumber
  | notAnArray
  | functionMustBeNumeric
  | parameterMustBeNumeric
  | oneNextVariableOnly
deriving DecidableEq, Repr

/-- The words for a complaint. -/
def Complaint.text : Complaint → String
  | missingLineNumber => "MISSING LINE NUMBER"
  | expectedLineNumber => "EXPECTED LINE NUMBER"
  | invalidLineNumber => "INVALID LINE NUMBER"
  | expectedStatement => "EXPECTED STATEMENT"
  | expectedEndOfStatement => "EXPECTED END OF STATEMENT"
  | expectedExpression => "EXPECTED EXPRESSION"
  | expectedEndOrSeparator => "EXPECTED END OR SEPARATOR"
  | expectedVariable => "EXPECTED VARIABLE"
  | expectedReservedWord => "EXPECTED RESERVED WORD"
  | expectedOperator => "EXPECTED OPERATOR"
  | expectedLeftParenthesis => "EXPECTED LEFT PARENTHESIS"
  | expectedRightParenthesis => "EXPECTED RIGHT PARENTHESIS"
  | expectedSemicolon => "EXPECTED SEMICOLON"
  | expectedThenOrGoto => "EXPECTED THEN OR GOTO"
  | expectedGotoOrGosub => "EXPECTED GOTO OR GOSUB"
  | invalidNumber => "INVALID NUMBER"
  | notAnArray => "NOT AN ARRAY"
  | functionMustBeNumeric => "FN MUST BE NUMERIC"
  | parameterMustBeNumeric => "PARAMETER MUST BE NUMERIC"
  | oneNextVariableOnly => "ONE NEXT VARIABLE ONLY"

/-- An error, with the program line it happened in if there is one and a detail that may be
empty. -/
structure Error where
  kind : ErrorKind
  line : Option LineNumber := none
  detail : String := ""
deriving DecidableEq, Repr

namespace Error

/-- The error of a line that cannot be read because of `c`. -/
def complain (c : Complaint) : Error := { kind := .syntaxError, detail := c.text }

/-- Says that the error happened in line `n`, unless it has a line already: the innermost place
wins. -/
def inLine (n : LineNumber) (e : Error) : Error :=
  match e.line with
  | some _ => e
  | none => { e with line := some n }

/-- The text shown for an error. BREAK is no failure, so it has neither question mark nor the
word ERROR. -/
def message (e : Error) : String :=
  let place := match e.line with
    | some n => " IN " ++ toString n
    | none => ""
  let detail := if e.detail = "" then "" else "; " ++ e.detail
  match e.kind with
  | .breakPressed => e.kind.name ++ place ++ detail
  | _ => "?" ++ e.kind.name ++ " ERROR" ++ place ++ detail

/-- An error keeps its kind in a line. -/
@[simp] theorem inLine_kind (n : LineNumber) (e : Error) : (e.inLine n).kind = e.kind := by
  unfold inLine; split <;> rfl

/-- It keeps its detail there. -/
@[simp] theorem inLine_detail (n : LineNumber) (e : Error) : (e.inLine n).detail = e.detail := by
  unfold inLine; split <;> rfl

/-- A second line number changes nothing. -/
@[simp] theorem inLine_inLine (m n : LineNumber) (e : Error) :
    (e.inLine m).inLine n = e.inLine m := by
  cases h : e.line <;> simp [inLine, h]

end Error

/-- Fails with an error of kind `k` of which nothing else is known. -/
abbrev raise {m : Type → Type} [MonadExcept Error m] {α : Type} (k : ErrorKind) : m α :=
  throw { kind := k }

end CommodoreBasic
