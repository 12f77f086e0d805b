import CommodoreBasic.Machine.Perform
import CommodoreBasic.Statement.Exec

/-!
# Running programs

A machine goes in turns, and each turn fetches one statement and carries it out. Before that the
BREAK key and the step limit are looked at, in this order, so that neither interrupts a statement, and
the clock is set to what it shows during the statement. Programs need not end, so runs are bounded by a
number of turns.
-/

namespace CommodoreBasic.Machine

/-- What one turn, or several, come to: the program goes on, or it is over with a result. -/
inductive Progress where
  | running (m : Machine)
  | finished (result : Except Error Unit) (m : Machine)

namespace Progress

/-- The machine as it is now. -/
def machine : Progress → Machine
  | running m => m
  | finished _ m => m

/-- The result, if the program is over. -/
def result? : Progress → Option (Except Error Unit)
  | running _ => none
  | finished r _ => some r

end Progress

/-- Moves the cursor to the first statement from where it is. -/
def settle (m : Machine) : Machine := { m with cursor := m.program.settle m.cursor }

/-- Looks for BREAK, counts a statement and lets the clock go on. -/
def beginStep : Action Machine Unit := fun m =>
  if m.interrupted then (raise .breakPressed, { m with interrupted := false })
  else
    let m := { m with steps := m.steps + 1 }
    if m.stepLimit.any (· < m.steps) then (raise .infiniteLoop, m) else (.ok (), m.advanceClock)

/-- Carries out a statement, counting it. -/
def step (s : Statement) : Action Machine Unit := do
  beginStep
  fun m => s.exec perform m.patience m

/-- What comes after a statement that did not fail. -/
def proceed (m : Machine) : Progress :=
  match m.flow with
  | .advance =>
    .running { m with cursor := { m.cursor with statement := m.cursor.statement + 1 } }
  | .jumped => .running { m with flow := .advance }
  | .halted => .finished (.ok ()) m

/-- One turn. An error gets the line of the statement that was fetched. -/
def turn (m : Machine) : Progress :=
  let m := m.settle
  match m.program.at? m.cursor with
  | none => .finished (.ok ()) m
  | some (line, s) =>
    match step s m with
    | (.ok (), m) => m.proceed
    | (.error e, m) => .finished (.error (e.inLine line.number)) m

/-- The next turn may ask for input. -/
def asksNext (m : Machine) : Bool :=
  (m.program.at? m.settle.cursor).any fun (_, s) => s.stripIfs.isInput

/-- At most `n` turns. -/
def runFor : Nat → Machine → Progress
  | 0, m => .running m
  | n + 1, m =>
    match m.turn with
    | .running m => runFor n m
    | .finished result m => .finished result m

/-- Runs a program from its start for at most `turns` turns. -/
def execute (m : Machine) (program : Program) (turns : Nat) : Progress :=
  (m.load program).runFor turns

/-- Carries out statements one after the other without a program to fetch them from, and keeps a
record of their requests. -/
def immediate (ss : List Statement) (m : Machine) : (Except Error Unit × Array Entry) × Machine :=
  let (result, (m, entries)) :=
    Statement.execAll perform.recording (fun s => s.1.patience) ss (m, #[])
  ((result, entries), m)

/-- A run of more turns that is over sooner is the same run. -/
theorem runFor_add (n k : Nat) (m : Machine) :
    runFor (n + k) m = match runFor n m with
      | .running m => runFor k m
      | .finished result m => .finished result m := by
  induction n generalizing m with
  | zero => simp [runFor]
  | succ n ih =>
    rw [Nat.add_right_comm, runFor, runFor]
    cases m.turn with
    | running m => exact ih m
    | finished => rfl

end CommodoreBasic.Machine
