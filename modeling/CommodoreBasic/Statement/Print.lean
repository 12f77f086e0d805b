import CommodoreBasic.Expr.Eval
import CommodoreBasic.Text.WhiteSpace

/-!
# PRINT

The items of a PRINT statement are collected into one text, which is printed when the statement
ends. A clear-screen character in an item prints what was collected before the item, clears the
screen and starts a new text; the character itself is never printed.
-/

namespace CommodoreBasic

/-- An item as it is printed: its text, and whether it is a number. -/
structure Piece where
  text : String
  isNumber : Bool

namespace Piece

/-- The character that clears the screen. -/
def clearScreen : Char := '\u0093'

/-- The piece that shows a value. -/
def ofValue (v : Value) : Piece := { text := v.shown, isNumber := !v.isText }

/-- The text has a clear-screen character. -/
def clears (p : Piece) : Bool := p.text.toList.contains clearScreen

/-- The piece without its clear-screen characters. -/
def stripped (p : Piece) : Piece :=
  { p with text := String.ofList (p.text.toList.filter (· != clearScreen)) }

/-- A character that would run together with a number beside it. -/
def runsTogether (c : Char) : Bool := !Text.isWhiteSpace c && !Text.isPunctuation c

/-- What stands between two pieces: a blank if one of them is a number and they would run
together. -/
def between (p q : Piece) : String :=
  if (p.isNumber || q.isNumber) && p.text.toList.getLast?.any runsTogether &&
    q.text.toList.head?.any runsTogether then " " else ""

end Piece

variable {σ : Type}

/-- Prints a text unless it is empty. -/
def printUnlessEmpty (h : Handler σ) (text : String) : Action σ Unit :=
  if text = "" then pure () else h .done (.print text)

/-- Prints the items after those that gave `text`, the last of them being `previous` if there was
one since the screen was cleared. -/
def printFrom (h : Handler σ) (newline : Bool) (text : String) (previous : Option Piece) :
    List Expr → Action σ Unit
  | [] => if newline then h .done (.printLine text) else printUnlessEmpty h text
  | e :: es => do
    let p := Piece.ofValue (← e.eval h)
    if p.clears then
      printUnlessEmpty h text
      h .done .clearScreen
      printFrom h newline p.stripped.text (some p.stripped) es
    else
      let gap := match previous with
        | some q => q.between p
        | none => ""
      printFrom h newline (text ++ gap ++ p.text) (some p) es

end CommodoreBasic
