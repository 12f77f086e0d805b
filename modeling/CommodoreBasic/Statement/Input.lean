import CommodoreBasic.Expr.Eval
import CommodoreBasic.Field
import CommodoreBasic.Number.Decimal

/-!
# INPUT

INPUT goes in rounds. A round asks until there is a field for every target. If each field suits its
target they are stored; otherwise the round starts over, and nothing has been stored.
-/

namespace CommodoreBasic

/-- What a field is as a value for the variable `n`, if it suits it. No text at all is zero. -/
def Field.valueFor? (f : Field) (n : Name) : Option Value :=
  if n.isText then some (.text f.text)
  else
    let cs := Text.trim f.text.toList
    if cs.isEmpty then some (.number 0) else (Number.readFinite? cs).map .number

/-- The values for the targets, if every field suits its own. -/
def Field.valuesFor? : List Target → List Field → Option (List Value)
  | t :: ts, f :: fs => do
    let v ← f.valueFor? t.name
    let vs ← valuesFor? ts fs
    return v :: vs
  | _, _ => some []

variable {σ : Type}

/-- Stores values in targets, from left to right. -/
def Target.storeAll (h : Handler σ) : List Target → List Value → Action σ Unit
  | t :: ts, v :: vs => do
    t.store h v
    storeAll h ts vs
  | _, _ => pure ()

/-- The question of INPUT. -/
def question (prompt : Option String) : String := prompt.getD "" ++ "? "

/-- The question for the fields that a reply left out. -/
def furtherQuestion : String := "?? "

/-- Asks `asked` with `fields` given so far in this round; `first` is the question that opens a
round. At most `patience` replies are taken. -/
def inputFrom (h : Handler σ) (targets : List Target) (first : String) :
    (patience : Nat) → (asked : String) → (fields : List Field) → Action σ Unit
  | 0, _, _ => raise .inputPastEnd
  | patience + 1, asked, fields => do
    let reply ← h .line (.ask asked)
    let fields := fields ++ Field.split reply
    if fields.length < targets.length then
      inputFrom h targets first patience furtherQuestion fields
    else match Field.valuesFor? targets fields with
      | none => do
        h .done (.printLine "?REDO FROM START")
        inputFrom h targets first patience first []
      | some vs => do
        Target.storeAll h targets vs
        if targets.length < fields.length then h .done (.printLine "?EXTRA IGNORED")

/-- Asks for the values of targets and stores them. -/
def inputAll (h : Handler σ) (patience : Nat) (prompt : Option String) :
    List Target → Action σ Unit
  | [] => pure ()
  | targets => inputFrom h targets (question prompt) patience (question prompt) []

end CommodoreBasic
