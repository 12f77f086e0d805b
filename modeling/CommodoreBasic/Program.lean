import CommodoreBasic.Statement.Parse
import CommodoreBasic.Token.Scan

/-!
# Programs

A program is numbered lines in the order of its text, which need not be that of the numbers. Where
two lines have one number, jumps go to the first.
-/

namespace CommodoreBasic

/-- A numbered line and its statements. -/
structure Line where
  number : LineNumber
  statements : List Statement

/-- A program: lines in textual order. -/
structure Program where
  lines : List Line := []

/-- A place in a program: a line and a statement of it, both counted from zero. -/
structure Position where
  line : Nat := 0
  statement : Nat := 0
deriving DecidableEq, Repr

/-- Reads a line that may have no number, as it is typed to be done at once. -/
def Statement.parseText (text : String) : Option LineNumber × Except Error (List Statement) :=
  let scanned := Token.scanLine text.toList
  let result := (Statement.parseAll scanned.tokens).mapError fun e =>
    match scanned.number with
    | some n => e.inLine n
    | none => e
  (scanned.number, result)

/-- Reads a program line, which must have a number. -/
def Line.parse (text : String) : Except Error Line :=
  match Statement.parseText text with
  | (some number, result) => result.map fun statements => { number, statements }
  | (none, _) => throw (.complain .missingLineNumber)

namespace Program

/-- The lines of a text. A line ends with a line feed, and a carriage return before that belongs to
its end; nothing after the last line feed is no line. -/
def splitLines (cs : List Char) : List (List Char) :=
  let rec go (reversed : List Char) : List Char → List (List Char)
    | [] => if reversed.isEmpty then [] else [reversed.reverse]
    | '\n' :: cs =>
      let line := match reversed with
        | '\r' :: reversed => reversed.reverse
        | reversed => reversed.reverse
      line :: go [] cs
    | c :: cs => go (c :: reversed) cs
  go [] cs

/-- Reads a program, leaving out lines of white space. The first line that cannot be read is the
error. -/
def parse (source : String) : Except Error Program := do
  let texts := (splitLines source.toList).filter (! ·.all Text.isWhiteSpace)
  return { lines := ← texts.mapM fun cs => Line.parse (String.ofList cs) }

/-- Where the first line with this number stands. -/
def indexOf? (p : Program) (n : LineNumber) : Option Nat :=
  p.lines.findIdx? (·.number == n)

/-- The line and the statement at a position. -/
def at? (p : Program) (pos : Position) : Option (Line × Statement) := do
  let line ← p.lines[pos.line]?
  let s ← line.statements[pos.statement]?
  return (line, s)

/-- The first position from here on that has a statement; `line` is the number of lines already
passed. -/
def settleIn (line statement : Nat) : List Line → Position
  | [] => ⟨line, statement⟩
  | l :: ls => if statement < l.statements.length then ⟨line, statement⟩ else settleIn (line + 1) 0 ls

/-- The first position at `pos` or after it that has a statement, or the position behind the program
if there is none. -/
def settle (p : Program) (pos : Position) : Position :=
  settleIn pos.line pos.statement (p.lines.drop pos.line)

end Program

end CommodoreBasic
