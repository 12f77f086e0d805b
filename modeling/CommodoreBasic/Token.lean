import CommodoreBasic.Builtin
import CommodoreBasic.Name

/-!
# Tokens

The pieces of a program line. A token remembers only what its text means, so `shown` gives its
usual spelling and not always the one it was read from.
-/

namespace CommodoreBasic

/-- The reserved words that are neither functions nor operators, with `?` beside PRINT. -/
inductive Keyword where
  | DATA | DEF | DIM | END | FN | FOR | GO | GOSUB | GOTO | IF | INPUT | LET | NEXT | ON
  | PRINT | QUESTION | READ | REM | RESTORE | RETURN | RUN | STEP | STOP | THEN | TO
deriving DecidableEq, Repr

/-- The usual spelling of a reserved word. -/
def Keyword.shown : Keyword → String
  | DATA => "DATA"
  | DEF => "DEF"
  | DIM => "DIM"
  | END => "END"
  | FN => "FN"
  | FOR => "FOR"
  | GO => "GO"
  | GOSUB => "GOSUB"
  | GOTO => "GOTO"
  | IF => "IF"
  | INPUT => "INPUT"
  | LET => "LET"
  | NEXT => "NEXT"
  | ON => "ON"
  | PRINT => "PRINT"
  | QUESTION => "?"
  | READ => "READ"
  | REM => "REM"
  | RESTORE => "RESTORE"
  | RETURN => "RETURN"
  | RUN => "RUN"
  | STEP => "STEP"
  | STOP => "STOP"
  | THEN => "THEN"
  | TO => "TO"

/-- The operators. -/
inductive Operator where
  | power | times | divide | plus | minus
  | equal | notEqual | less | lessOrEqual | greater | greaterOrEqual
  | not | and | or
deriving DecidableEq, Repr

/-- The usual spelling of an operator. -/
def Operator.shown : Operator → String
  | power => "^"
  | times => "*"
  | divide => "/"
  | plus => "+"
  | minus => "-"
  | equal => "="
  | notEqual => "<>"
  | less => "<"
  | lessOrEqual => "<="
  | greater => ">"
  | greaterOrEqual => ">="
  | not => "NOT"
  | and => "AND"
  | or => "OR"

/-- A token of a program line. -/
inductive Token where
  /-- A character no other token starts with, or the raw text after REM or DATA. -/
  | unknown (text : String)
  /-- A run of blanks and tabs. -/
  | blanks (count : Nat)
  /-- A number, as it was written but for its exponent mark, which is in capitals. -/
  | numeral (text : String)
  /-- The text between quotation marks. -/
  | quoted (text : String)
  | keyword (word : Keyword)
  | builtin (function : Builtin)
  | operator (op : Operator)
  /-- The name of a variable, in capitals. -/
  | name (name : Name)
  | leftParenthesis
  | rightParenthesis
  | comma
  | colon
  | semicolon
deriving DecidableEq, Repr

namespace Token

/-- The usual spelling of a token. -/
def shown : Token → String
  | unknown s => s
  | blanks n => String.ofList (List.replicate n ' ')
  | numeral s => s
  | quoted s => "\"" ++ s ++ "\""
  | keyword k => k.shown
  | builtin f => f.name
  | operator op => op.shown
  | name n => n
  | leftParenthesis => "("
  | rightParenthesis => ")"
  | comma => ","
  | colon => ":"
  | semicolon => ";"

/-- A run of blanks and tabs, which no statement needs. -/
def isBlanks : Token → Bool
  | blanks _ => true
  | _ => false

end Token

end CommodoreBasic
