import CommodoreBasic.Expr.Parse
import CommodoreBasic.Field
import CommodoreBasic.Statement
import CommodoreBasic.Text.WhiteSpace

/-!
# Parsing statements

A line is a list of statements between colons. Every statement but REM ends at the next colon that
is not inside it.
-/

namespace CommodoreBasic

namespace Parser

/-- The line number that a token is, if it is made of digits, and of nothing else, and not too great. -/
def lineNumberOf : Token → Except Error LineNumber
  | .numeral s =>
    let cs := s.toList
    let n := Decimal.ofDigits cs
    if !cs.isEmpty && cs.all Char.isDigit && n ≤ LineNumber.greatest then .ok n
    else throw (.complain .invalidLineNumber)
  | _ => throw (.complain .invalidLineNumber)

/-- Reads a line number. -/
def lineNumber : Parser LineNumber
  | [] => throw (.complain .expectedLineNumber)
  | t :: ts => return (← lineNumberOf t, ts)

/-- Reads one or more line numbers between commas. -/
def lineNumbers : Parser (List LineNumber)
  | [] => throw (.complain .expectedLineNumber)
  | t :: .comma :: ts => do
    let n ← lineNumberOf t
    let (ns, ts) ← lineNumbers ts
    return (n :: ns, ts)
  | t :: ts => return ([← lineNumberOf t], ts)

/-- Reads a line number if a literal follows. -/
def lineNumber? : Parser (Option LineNumber)
  | .numeral s :: ts => return (some (← lineNumberOf (.numeral s)), ts)
  | .quoted s :: ts => return (some (← lineNumberOf (.quoted s)), ts)
  | ts => return (none, ts)

/-- Reads one or more names between commas. -/
def names : Parser (List Name)
  | .name n :: .comma :: ts => do
    let (ns, ts) ← names ts
    return (n :: ns, ts)
  | .name n :: ts => return ([n], ts)
  | _ => throw (.complain .expectedVariable)

/-- Reads the counters of NEXT, which may have none. -/
def counters : Parser (List (Option Name))
  | .name n :: ts => do
    let (ns, ts) ← names (.name n :: ts)
    return (ns.map some, ts)
  | ts => return ([none], ts)

/-- Reads what is to be printed up to the colon or the end, and whether a new line follows it: it
does unless a separator comes last. At most `count` tokens and items are looked at. -/
def printItems : (count : Nat) → (newline : Bool) → Parser (List Expr × Bool)
  | 0, _, _ => throw (.complain .expectedExpression)
  | count + 1, newline, ts =>
    match ts with
    | [] => return (([], newline), ts)
    | .colon :: _ => return (([], newline), ts)
    | .semicolon :: ts => printItems count false ts
    | .comma :: ts => printItems count false ts
    | ts => do
      let (e, ts) ← Expr.parse ts
      let ((es, newline), ts) ← printItems count true ts
      return ((e :: es, newline), ts)

/-- The pieces of DIM, which must all be arrays. -/
def arraysOf : List Target → Except Error (List (Name × List Expr))
  | [] => return []
  | .element n es :: ts => return (n, es) :: (← arraysOf ts)
  | .scalar _ :: _ => throw (.complain .notAnArray)

end Parser

/-- The constant that a field of DATA is: a finite number if it reads as one and is not quoted. -/
def Field.constant : Field → Value
  | .quoted s => .text s
  | .bare s =>
    match Number.readFinite? s.toList with
    | some x => .number x
    | none => .text s

namespace Statement

open CommodoreBasic.Parser

/-- DEF after its word. -/
def parseDefine : Parser Statement := fun ts => do
  let ((), ts) ← expect (.keyword .FN) .expectedReservedWord ts
  let (function, ts) ← variableName ts
  if function.isText then throw (.complain .functionMustBeNumeric)
  let ((), ts) ← expect .leftParenthesis .expectedLeftParenthesis ts
  let (parameter, ts) ← variableName ts
  if parameter.isText then throw (.complain .parameterMustBeNumeric)
  let ((), ts) ← expect .rightParenthesis .expectedRightParenthesis ts
  let ((), ts) ← expect (.operator .equal) .expectedOperator ts
  let (body, ts) ← Expr.parse ts
  return (.define ("FN" ++ function) parameter body, ts)

/-- DIM after its word. -/
def parseDimension : Parser Statement := fun ts => do
  let (targets, ts) ← Target.parseList ts
  return (.dimension (← arraysOf targets), ts)

/-- FOR after its word. -/
def parseLoop : Parser Statement := fun ts => do
  let (counter, ts) ← variableName ts
  if counter.isText then raise .typeMismatch
  let ((), ts) ← expect (.operator .equal) .expectedOperator ts
  let (start, ts) ← Expr.parse ts
  let ((), ts) ← expect (.keyword .TO) .expectedReservedWord ts
  let (limit, ts) ← Expr.parse ts
  match ts with
  | .keyword .STEP :: ts => do
    let (step, ts) ← Expr.parse ts
    return (.loop counter start limit (some step), ts)
  | ts => return (.loop counter start limit none, ts)

/-- INPUT after its word. -/
def parseInput : Parser Statement
  | .quoted prompt :: ts => do
    let ((), ts) ← expect .semicolon .expectedSemicolon ts
    let (targets, ts) ← Target.parseList ts
    return (.input (some prompt) targets, ts)
  | ts => do
    let (targets, ts) ← Target.parseList ts
    return (.input none targets, ts)

/-- LET after its word, or without it. -/
def parseAssign : Parser Statement := fun ts => do
  let (target, ts) ← Target.parse ts
  let ((), ts) ← expect (.operator .equal) .expectedOperator ts
  let (value, ts) ← Expr.parse ts
  return (.assign target value, ts)

/-- ON after its word. -/
def parseOn : Parser Statement := fun ts => do
  let (selector, ts) ← Expr.parse ts
  match ts with
  | .keyword .GOTO :: ts => do
    let (lines, ts) ← lineNumbers ts
    return (.on selector .goto lines, ts)
  | .keyword .GOSUB :: ts => do
    let (lines, ts) ← lineNumbers ts
    return (.on selector .gosub lines, ts)
  | _ => throw (.complain .expectedGotoOrGosub)

/-- PRINT after its word. -/
def parsePrint : Parser Statement := fun ts => do
  let ((items, newline), ts) ← printItems (ts.length + 1) true ts
  return (.print items newline, ts)

/-- DATA after its word. With no text there is one empty item. -/
def parseData : Parser Statement
  | .unknown raw :: ts => return (.data ((Field.split raw).map Field.constant), ts)
  | ts => return (.data [.text ""], ts)

/-- A jump after its word. -/
def parseJump (jump : Jump) : Parser Statement := fun ts => do
  let (line, ts) ← lineNumber ts
  return (.jump jump line, ts)

/-- Every statement but IF after its word. -/
def parseAfter : Keyword → Parser Statement
  | .DATA, ts => parseData ts
  | .DEF, ts => parseDefine ts
  | .DIM, ts => parseDimension ts
  | .END, ts => return (.finish, ts)
  | .FOR, ts => parseLoop ts
  | .GO, ts => do
    let ((), ts) ← expect (.keyword .TO) .expectedReservedWord ts
    parseJump .goto ts
  | .GOSUB, ts => parseJump .gosub ts
  | .GOTO, ts => parseJump .goto ts
  | .INPUT, ts => parseInput ts
  | .LET, ts => parseAssign ts
  | .NEXT, ts => do
    match ← counters ts with
    | ([counter], ts) => return (.next counter, ts)
    | _ => throw (.complain .oneNextVariableOnly)
  | .ON, ts => parseOn ts
  | .PRINT, ts | .QUESTION, ts => parsePrint ts
  | .READ, ts => do
    let (targets, ts) ← Target.parseList ts
    return (.read targets, ts)
  | .REM, _ => return (.remark, [])
  | .RESTORE, ts => do
    let (line, ts) ← lineNumber? ts
    return (.restore line, ts)
  | .RETURN, ts => return (.comeBack, ts)
  | .RUN, ts => do
    let (line, ts) ← lineNumber? ts
    return (.run line, ts)
  | .STOP, ts => return (.stop, ts)
  | .FN, _ | .IF, _ | .STEP, _ | .THEN, _ | .TO, _ => throw (.complain .expectedStatement)

/-- A statement under at most `depth` IFs. A number after THEN is a line to go to. -/
def parseUnder : (depth : Nat) → Parser Statement
  | 0, _ => throw (.complain .expectedStatement)
  | depth + 1, ts =>
    match ts with
    | .keyword .IF :: ts => do
      let (condition, ts) ← Expr.parse ts
      let (consequent, ts) ← match ts with
        | .keyword .THEN :: .numeral s :: ts => parseJump .goto (.numeral s :: ts)
        | .keyword .THEN :: ts => parseUnder depth ts
        | .keyword .GOTO :: ts => parseJump .goto ts
        | _ => throw (.complain .expectedThenOrGoto)
      return (.ifThen condition consequent, ts)
    | .keyword word :: ts => parseAfter word ts
    | .name n :: ts => parseAssign (.name n :: ts)
    | _ => throw (.complain .expectedStatement)

/-- Reads a statement. -/
def parse : Parser Statement := fun ts => parseUnder (ts.length + 1) ts

/-- Reads what stands between two colons. NEXT with several counters is as many statements. -/
def parsePart : Parser (List Statement)
  | .keyword .NEXT :: ts => do
    let (names, ts) ← counters ts
    return (names.map .next, ts)
  | ts => do
    let (s, ts) ← parse ts
    return ([s], ts)

/-- The statements of at most `count` parts, colons included. -/
def parseParts : (count : Nat) → List Token → Except Error (List Statement)
  | _, [] => return []
  | 0, _ => throw (.complain .expectedEndOfStatement)
  | count + 1, .colon :: ts => parseParts count ts
  | count + 1, ts => do
    let (part, ts) ← parsePart ts
    match ts with
    | [] => return part
    | .colon :: ts => return part ++ (← parseParts count ts)
    | _ => throw (.complain .expectedEndOfStatement)

/-- The statements of a line, from its tokens. -/
def parseAll (ts : List Token) : Except Error (List Statement) :=
  let ts := ts.filter (! ·.isBlanks)
  parseParts (ts.length + 1) ts

end Statement

end CommodoreBasic
