import CommodoreBasic.Token

/-!
# Crunching

Reserved words, function names, operators and punctuation are found wherever they are spelled, with
no blank needed before or after them and capitals or not.
-/

namespace CommodoreBasic.Token

/-- Every spelling that is crunched, and its token. A spelling that begins another one stands after
it, so the first that fits is the longest. -/
def spellings : List (String × Token) := [
  ("RESTORE", keyword .RESTORE),
  ("GOSUB", keyword .GOSUB),
  ("INPUT", keyword .INPUT),
  ("PRINT", keyword .PRINT),
  ("RETURN", keyword .RETURN),
  ("RIGHT$", builtin .right),
  ("LEFT$", builtin .left),
  ("CHR$", builtin .chr),
  ("DATA", keyword .DATA),
  ("GOTO", keyword .GOTO),
  ("MID$", builtin .mid),
  ("NEXT", keyword .NEXT),
  ("READ", keyword .READ),
  ("STEP", keyword .STEP),
  ("STOP", keyword .STOP),
  ("STR$", builtin .str),
  ("THEN", keyword .THEN),
  ("ABS", builtin .abs),
  ("AND", operator .and),
  ("ASC", builtin .asc),
  ("ATN", builtin .atn),
  ("COS", builtin .cos),
  ("DEF", keyword .DEF),
  ("DIM", keyword .DIM),
  ("END", keyword .END),
  ("EXP", builtin .exp),
  ("FOR", keyword .FOR),
  ("FRE", builtin .fre),
  ("INT", builtin .int),
  ("LEN", builtin .len),
  ("LET", keyword .LET),
  ("LOG", builtin .log),
  ("NOT", operator .not),
  ("REM", keyword .REM),
  ("RND", builtin .rnd),
  ("RUN", keyword .RUN),
  ("SGN", builtin .sgn),
  ("SIN", builtin .sin),
  ("SPC", builtin .spc),
  ("SQR", builtin .sqr),
  ("TAN", builtin .tan),
  ("VAL", builtin .val),
  ("FN", keyword .FN),
  ("GO", keyword .GO),
  ("IF", keyword .IF),
  ("ON", keyword .ON),
  ("OR", operator .or),
  ("TO", keyword .TO),
  ("<=", operator .lessOrEqual),
  ("=<", operator .lessOrEqual),
  (">=", operator .greaterOrEqual),
  ("=>", operator .greaterOrEqual),
  ("<>", operator .notEqual),
  ("><", operator .notEqual),
  ("?", keyword .QUESTION),
  ("^", operator .power),
  ("*", operator .times),
  ("/", operator .divide),
  ("+", operator .plus),
  ("-", operator .minus),
  ("=", operator .equal),
  ("<", operator .less),
  (">", operator .greater),
  ("(", leftParenthesis),
  (")", rightParenthesis),
  (",", comma),
  (":", colon),
  (";", semicolon)]

/-- The spellings, character by character. -/
def crunchTable : List (List Char × Token) := spellings.map fun (s, t) => (s.toList, t)

/-- The characters of `word` stand at the start of `cs`, in capitals or not. -/
def isSpelledAt : (word cs : List Char) → Bool
  | [], _ => true
  | _ :: _, [] => false
  | w :: word, c :: cs => w == c.toUpper && isSpelledAt word cs

/-- The token spelled at the start of `cs`, and the number of characters it takes. -/
def crunch? (cs : List Char) : Option (Nat × Token) :=
  (crunchTable.find? fun (word, _) => isSpelledAt word cs).map fun (word, t) => (word.length, t)

/-- The token whose spelling is all of `cs`. -/
def ofSpelling? (cs : List Char) : Option Token :=
  match crunch? cs with
  | some (n, t) => if n = cs.length then some t else none
  | none => none

end CommodoreBasic.Token
