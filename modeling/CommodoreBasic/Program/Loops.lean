import CommodoreBasic.Program

/-!
# Loops in the text of a program

A loop whose counter starts beyond its limit does not run at all: it goes on behind the NEXT that
closes it in the text. That NEXT is found by reading on from the FOR, whatever the control flow.
-/

namespace CommodoreBasic

namespace Program

/-- All statements of a program with their positions, in textual order and without the IFs they stand
under. -/
def flatten (p : Program) : List (Position × Statement) :=
  p.lines.zipIdx.flatMap fun (line, i) =>
    line.statements.zipIdx.map fun (s, j) => (⟨i, j⟩, s.stripIfs)

/-- The NEXT that closes a loop on `counter`, a folded name, among the statements after its FOR:
the first that names the counter, or the first without a name that no loop opened on the way has
used up. `depth` counts the loops opened and not closed so far. -/
def closingNext? (counter : Name) : (depth : Nat) → List (Position × Statement) → Option Position
  | _, [] => none
  | depth, (pos, s) :: rest =>
    match s with
    | .loop .. => closingNext? counter (depth + 1) rest
    | .next (some n) =>
      if n.fold = counter then some pos else closingNext? counter (depth - 1) rest
    | .next none =>
      match depth with
      | 0 => some pos
      | depth + 1 => closingNext? counter depth rest
    | _ => closingNext? counter depth rest

/-- Where to go on if the loop that starts at `pos` does not run, if its NEXT is found. -/
def loopExit? (p : Program) (pos : Position) : Option Position :=
  match p.flatten.dropWhile (·.1 != pos) with
  | (_, .loop counter _ _ _) :: rest =>
    (closingNext? counter.fold 0 rest).map fun q => ⟨q.line, q.statement + 1⟩
  | _ => none

end Program

end CommodoreBasic
