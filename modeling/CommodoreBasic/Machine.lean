import CommodoreBasic.Builtin.Apply
import CommodoreBasic.Console
import CommodoreBasic.DataPool
import CommodoreBasic.Memory
import CommodoreBasic.Program.Loops
import CommodoreBasic.Request
import CommodoreBasic.Stack

/-!
# The machine

The state of a machine that runs BASIC programs. Memory, functions and the random generator outlive
a program; everything else is set up anew when a program is loaded.
-/

namespace CommodoreBasic

/-- A running loop: its counter, a folded name, and where its body begins. -/
structure Loop where
  counter : Name
  limit : Float
  step : Float
  resume : Position

/-- The loop goes on with this value of its counter. -/
def Loop.continues (l : Loop) (x : Float) : Bool :=
  if l.step > 0 then x ≤ l.limit else x ≥ l.limit

/-- A function that a program has defined. -/
structure UserFunction where
  parameter : Name
  body : Expr

/-- What a statement wants to come after it: the statement behind it, the one that the cursor has
been set to, or nothing. -/
inductive Flow where
  | advance
  | jumped
  | halted
deriving DecidableEq, Repr

/-- A machine. -/
structure Machine where
  console : Console := {}
  memory : Memory := {}
  functions : Std.HashMap String UserFunction := {}
  random : Random := default
  /-- The loops that run, the innermost on top. -/
  loops : Stack Loop
  /-- The lines to come back to from subroutines. -/
  returns : Stack Nat
  program : Program := {}
  data : DataPool := {}
  cursor : Position := {}
  flow : Flow := .advance
  /-- How many statements have been fetched. -/
  steps : Nat := 0
  /-- How many statements may be fetched, if there is a limit. -/
  stepLimit : Option Nat
  /-- The BREAK key has been pressed. -/
  interrupted : Bool := false
  /-- How many user functions are being called in one another. -/
  depth : Nat := 0

namespace Machine

/-- The step limit of a machine for which none is chosen. -/
def defaultStepLimit : Nat := 1000

/-- The stack limit of a machine for which none is chosen. -/
def defaultStackLimit : Nat := 256

/-- A machine at a console, with its generator and its clock. A step limit of zero is none; the stack
limit holds for loops, for subroutines and for the nesting of user functions. -/
def new (console : Console) (stepLimit stackLimit : Nat) (random : Random := default)
    (clock : Clock := {}) : Machine where
  console
  memory := { clock }
  random
  loops := { limit := stackLimit }
  returns := { limit := stackLimit }
  stepLimit := if stepLimit = 0 then none else some stepLimit

/-- The machine with variables, functions, loops and subroutines forgotten and DATA to be read from
the start. -/
def clear (m : Machine) : Machine :=
  { m with
    memory := m.memory.clear
    functions := {}
    loops := m.loops.clear
    returns := m.returns.clear
    data := m.data.rewind }

/-- The machine about to run a program from its start. -/
def load (m : Machine) (program : Program) : Machine :=
  { m with
    loops := m.loops.clear
    returns := m.returns.clear
    program
    data := DataPool.ofProgram program
    cursor := {}
    flow := .advance
    steps := 0
    interrupted := false
    depth := 0 }

/-- The machine with the cursor set to a position. -/
def jumpTo (m : Machine) (pos : Position) : Machine := { m with cursor := pos, flow := .jumped }

/-- The machine with the cursor set to the start of a line. -/
def jumpToLine (m : Machine) (line : Nat) : Machine := m.jumpTo { line }

/-- The machine during the next statement. -/
def advanceClock (m : Machine) : Machine := { m with memory := m.memory.advanceClock }

/-- The most replies that an INPUT statement can take. -/
def patience (m : Machine) : Nat := m.console.replies.length + 1

end Machine

end CommodoreBasic
