import Std.Data.HashMap
import CommodoreBasic.Action
import CommodoreBasic.Value

/-!
# Memory

The variables and arrays of a program, both under their folded names and apart from each other. An
array that is used before it is dimensioned gets subscripts from 0 to 10 in every dimension.

The clock behind the reserved variables is read from outside. What it will show is given beforehand,
statement by statement.
-/

namespace CommodoreBasic

/-- An array: the greatest subscript of each dimension, and its elements, those with the last
subscript running fastest. -/
structure Table where
  bounds : List Nat
  cells : Array Value

/-- What a clock shows: sixtieths of a second since the machine was started, and seconds of the
day. -/
structure Time where
  ticks : Nat := 0
  secondOfDay : Nat := 0

/-- Hours, minutes and seconds of the day, two digits each. -/
def Time.text (t : Time) : String :=
  let pair (n : Nat) : List Char := [Nat.digitChar (n / 10 % 10), Nat.digitChar (n % 10)]
  String.ofList (pair (t.secondOfDay / 3600) ++ pair (t.secondOfDay / 60 % 60) ++
    pair (t.secondOfDay % 60))

/-- A clock: what it shows now, and what it will show during the statements to come. A clock of which
no more is said stands still. -/
structure Clock where
  now : Time := {}
  later : Nat → Time := fun _ => now

/-- The clock during the next statement. -/
def Clock.advance (c : Clock) : Clock where
  now := c.later 0
  later k := c.later (k + 1)

/-- Variables, arrays and the clock behind the reserved variables. -/
structure Memory where
  scalars : Std.HashMap Name Value := {}
  tables : Std.HashMap Name Table := {}
  /-- How many elements the arrays have. -/
  slots : Nat := 0
  clock : Clock := {}

namespace Memory

instance : Inhabited Memory := ⟨{}⟩

/-- The greatest number of elements that all arrays together may have. -/
def greatestSlots : Nat := 65536

/-- No variable is stored once this many are. -/
def scalarCapacity : Nat := 65536

/-- The memory with nothing stored in it. -/
def clear (m : Memory) : Memory := { m with scalars := {}, tables := {}, slots := 0 }

/-- The memory with one more array, the elements of which are counted. -/
def addTable (m : Memory) (key : Name) (t : Table) : Memory :=
  { m with tables := m.tables.insert key t, slots := m.slots + t.cells.size }

/-- The memory during the next statement. -/
def advanceClock (m : Memory) : Memory := { m with clock := m.clock.advance }

/-- The value of a variable. -/
def fetch (m : Memory) (n : Name) : Value :=
  let key := n.fold
  if key == "TI" then .number (Float.ofNat m.clock.now.ticks)
  else if key == "TI$" then .text m.clock.now.text
  else m.scalars[key]?.getD (.zeroFor key)

/-- Stores a value in a variable. -/
def store (n : Name) (v : Value) : Action Memory Unit := fun m =>
  let key := n.fold
  if key.isReserved then (raise .syntaxError, m)
  else if !v.fits key then (raise .typeMismatch, m)
  else if scalarCapacity ≤ m.scalars.size then (raise .outOfMemory, m)
  else (.ok (), { m with scalars := m.scalars.insert key v })

/-- The number of elements that arrays with these bounds have, times `size`, if at no dimension it
is too many beside `used` others. -/
def sizeBeside (used : Nat) : (size : Nat) → (bounds : List Nat) → Option Nat
  | size, [] => some size
  | size, b :: bs =>
    if used + size * (b + 1) ≤ greatestSlots then sizeBeside used (size * (b + 1)) bs else none

/-- Makes an array of zeros under a folded name. -/
def allocate (key : Name) (bounds : List Nat) : Action Memory Unit := fun m =>
  match sizeBeside m.slots 1 bounds with
  | some size =>
    (.ok (), m.addTable key { bounds, cells := Array.replicate size (.zeroFor key) })
  | none => (raise .outOfMemory, m)

/-- Makes an array with the given greatest subscripts. -/
def dimension (n : Name) (sizes : List Value) : Action Memory Unit := fun m =>
  if m.tables.contains n.fold then (raise .redimensionedArray, m)
  else match sizes.mapM Value.toSubscript with
    | .ok bounds => allocate n.fold bounds m
    | .error e => (.error e, m)

/-- The place of an element among the elements of its array, the subscripts before having led to
`offset`. -/
def offsetFrom : (offset : Nat) → (subscripts bounds : List Nat) → Option Nat
  | offset, [], [] => some offset
  | offset, i :: is, b :: bs =>
    if i ≤ b then offsetFrom (offset * (b + 1) + i) is bs else none
  | _, _, _ => none

/-- The place of an element in the array with a folded name. The array is made if there is none. -/
def locate (key : Name) (subscripts : List Value) : Action Memory Nat := do
  let is ← Action.ofExcept (subscripts.mapM Value.toSubscript)
  fun m =>
    let (made, m) :=
      if m.tables.contains key then (.ok (), m)
      else allocate key (List.replicate is.length 10) m
    match made with
    | .error e => (.error e, m)
    | .ok () =>
      match (m.tables[key]?).bind fun t => offsetFrom 0 is t.bounds with
      | some offset => (.ok offset, m)
      | none => (raise .badSubscript, m)

/-- The value of an element. -/
def fetchElement (n : Name) (subscripts : List Value) : Action Memory Value := do
  let offset ← locate n.fold subscripts
  fun m =>
    match (m.tables[n.fold]?).bind fun t => t.cells[offset]? with
    | some v => (.ok v, m)
    | none => (raise .badSubscript, m)

/-- Stores a value in an element. -/
def storeElement (n : Name) (subscripts : List Value) (v : Value) : Action Memory Unit := do
  if !v.fits n.fold then raise .typeMismatch
  let offset ← locate n.fold subscripts
  fun m =>
    match m.tables[n.fold]?.map (·.cells.size) with
    | some size =>
      if offset < size then
        let put (t : Table) : Table := { t with cells := t.cells.setIfInBounds offset v }
        (.ok (), { m with tables := m.tables.modify n.fold put })
      else (raise .badSubscript, m)
    | none => (raise .badSubscript, m)

end Memory

end CommodoreBasic
