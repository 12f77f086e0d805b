import CommodoreBasic.Program

/-!
# The data pool

The items of all DATA statements of a program in textual order, wherever they stand, and how many of
them READ has taken.
-/

namespace CommodoreBasic

/-- The items of a line's DATA statements. -/
def Line.dataItems (l : Line) : List Value := l.statements.flatMap Statement.dataItems

/-- The items of a program's DATA statements. -/
def Program.dataItems (p : Program) : List Value := p.lines.flatMap Line.dataItems

/-- DATA items, the lines that have any with the index of their first, and the next item to read. -/
structure DataPool where
  items : Array Value := #[]
  starts : List (LineNumber × Nat) := []
  next : Nat := 0

namespace DataPool

/-- The lines that have items, with the index of their first item if `count` items precede. -/
def startsFrom (count : Nat) : List Line → List (LineNumber × Nat)
  | [] => []
  | l :: ls =>
    if l.dataItems.isEmpty then startsFrom count ls
    else (l.number, count) :: startsFrom (count + l.dataItems.length) ls

/-- The pool of a program, with nothing read. -/
def ofProgram (p : Program) : DataPool :=
  { items := p.dataItems.toArray, starts := startsFrom 0 p.lines }

/-- The next item, and the pool after it is read. -/
def read? (d : DataPool) : Option (Value × DataPool) :=
  d.items[d.next]?.map fun v => (v, { d with next := d.next + 1 })

/-- The pool with reading to start over. -/
def rewind (d : DataPool) : DataPool := { d with next := 0 }

/-- The pool with reading to go on at the first line of the text that has items and a number of at
least `n`, or to find nothing if there is no such line. -/
def restore (d : DataPool) (n : LineNumber) : DataPool :=
  { d with next := match d.starts.find? (n ≤ ·.1) with
    | some (_, i) => i
    | none => d.items.size }

end DataPool

end CommodoreBasic
