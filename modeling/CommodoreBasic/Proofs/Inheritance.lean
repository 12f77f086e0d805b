import CommodoreBasic.Proofs.Lockstep
import CommodoreBasic.Proofs.MemoryLaws

/-!
# What a program inherits

A machine outlives its programs. Variables, arrays and user functions stay when a program is over, and
so do the random generator, the console and the limits; nothing else that earlier programs left behind
has any influence on the next one. The statement is about two machines that agree on what stays: loaded
with one program they are in lockstep, whatever their loops, subroutines, DATA, cursor, flags and
counts were.

Variables, arrays and functions agree if they have the same entries. How the tables that hold them have
come about, and so the order of their entries, does not matter.
-/

namespace CommodoreBasic

open CommodoreBasic.Action

namespace Memory

variable {m m' : Memory}

/-- The memories hold the same variables and arrays and have counted the same elements, and their clocks
show the same time, now and later. -/
structure SameContents (m m' : Memory) : Prop where
  scalars : m.scalars.Equiv m'.scalars
  tables : m.tables.Equiv m'.tables
  slots : m.slots = m'.slots
  clock : m.clock = m'.clock

namespace SameContents

/-- Memories with the same contents have the same values. -/
theorem fetch_eq (h : m.SameContents m') (n : Name) : m.fetch n = m'.fetch n := by
  unfold fetch
  dsimp only
  rw [h.clock, h.scalars.getElem?_eq]

/-- They have none once they are cleared. -/
theorem clear (h : m.SameContents m') : m.clear.SameContents m'.clear := ⟨.rfl, .rfl, rfl, h.clock⟩

/-- The same array may be added to both. -/
theorem addTable (h : m.SameContents m') (key : Name) (t : Table) :
    (m.addTable key t).SameContents (m'.addTable key t) :=
  { h with tables := h.tables.insert key t, slots := congrArg (· + t.cells.size) h.slots }

/-- The clock goes on in both. -/
theorem advanceClock (h : m.SameContents m') : m.advanceClock.SameContents m'.advanceClock :=
  { h with clock := congrArg Clock.advance h.clock }

end SameContents

/-- A value is stored in both. -/
theorem store_sameContents (n : Name) (v : Value) :
    Agree SameContents (store n v) (store n v) := by
  intro m m' h
  unfold store
  dsimp only
  rw [h.scalars.size_eq]
  split
  · exact ⟨rfl, h⟩
  · split
    · exact ⟨rfl, h⟩
    · split
      · exact ⟨rfl, h⟩
      · exact ⟨rfl, { h with scalars := h.scalars.insert n.fold v }⟩

/-- An array is made in both, or in none for lack of room. -/
theorem allocate_sameContents (key : Name) (bounds : List Nat) :
    Agree SameContents (allocate key bounds) (allocate key bounds) := by
  intro m m' h
  unfold allocate
  rw [h.slots]
  cases sizeBeside m'.slots 1 bounds with
  | none => exact ⟨rfl, h⟩
  | some size => exact ⟨rfl, h.addTable key _⟩

/-- DIM does the same to both. -/
theorem dimension_sameContents (n : Name) (sizes : List Value) :
    Agree SameContents (dimension n sizes) (dimension n sizes) := by
  intro m m' h
  unfold dimension
  rw [h.tables.contains_eq]
  split
  · exact ⟨rfl, h⟩
  · split
    · exact allocate_sameContents n.fold _ m m' h
    · exact ⟨rfl, h⟩

/-- So does the first use of an array. -/
theorem provide_sameContents (key : Name) (count : Nat) :
    Agree SameContents (provide key count) (provide key count) := by
  intro m m' h
  unfold provide
  rw [h.tables.contains_eq]
  split
  · exact ⟨rfl, h⟩
  · exact allocate_sameContents key _ m m' h

/-- An element has the same place in both. -/
theorem offset_sameContents (key : Name) (subscripts : List Nat) :
    Agree SameContents (offset key subscripts) (offset key subscripts) := by
  intro m m' h
  unfold offset
  rw [h.tables.getElem?_eq]
  split <;> exact ⟨rfl, h⟩

/-- It is found in the same way. -/
theorem locate_sameContents (key : Name) (subscripts : List Value) :
    Agree SameContents (locate key subscripts) (locate key subscripts) := by
  rw [locate_eq]
  exact (Agree.ofExcept _).bind fun is =>
    (provide_sameContents key is.length).bind fun _ => offset_sameContents key is

/-- It has the same value. -/
theorem fetchElement_sameContents (n : Name) (subscripts : List Value) :
    Agree SameContents (fetchElement n subscripts) (fetchElement n subscripts) := by
  refine (locate_sameContents n.fold subscripts).bind fun offset => ?_
  intro m m' h
  dsimp only
  rw [h.tables.getElem?_eq]
  split <;> exact ⟨rfl, h⟩

/-- It is stored in the same way. -/
theorem storeElement_sameContents (n : Name) (subscripts : List Value) (v : Value) :
    Agree SameContents (storeElement n subscripts v) (storeElement n subscripts v) := by
  unfold storeElement
  cases hfits : v.fits n.fold
  · exact Agree.throw _
  · refine (locate_sameContents n.fold subscripts).bind fun offset => ?_
    intro m m' h
    dsimp only
    rw [h.tables.getElem?_eq]
    split
    · split
      · exact ⟨rfl, { h with tables := h.tables.modify n.fold _ }⟩
      · exact ⟨rfl, h⟩
    · exact ⟨rfl, h⟩

/-- No request can tell memories with the same contents apart. -/
theorem congruence_sameContents : Congruence SameContents where
  fetch h n := h.fetch_eq n
  clear h := h.clear
  advanceClock h := h.advanceClock
  store := store_sameContents
  dimension := dimension_sameContents
  fetchElement := fetchElement_sameContents
  storeElement := storeElement_sameContents

end Memory

namespace Machine

variable {s t : Machine} {p : Program}

/-- The machines agree on what stays when a program is over. -/
structure SameInheritance (s t : Machine) : Prop where
  console : s.console = t.console
  memory : s.memory.SameContents t.memory
  functions : s.functions.Equiv t.functions
  random : s.random = t.random
  loopLimit : s.loops.limit = t.loops.limit
  returnLimit : s.returns.limit = t.returns.limit
  stepLimit : s.stepLimit = t.stepLimit

/-- The machines agree in every part. -/
structure SameMachine (s t : Machine) : Prop extends SameInheritance s t where
  loops : s.loops = t.loops
  returns : s.returns = t.returns
  program : s.program = t.program
  data : s.data = t.data
  cursor : s.cursor = t.cursor
  flow : s.flow = t.flow
  steps : s.steps = t.steps
  interrupted : s.interrupted = t.interrupted
  depth : s.depth = t.depth

/-- The machines have the same variables, arrays and functions, however their tables are laid out. -/
def contents : Likeness where
  rename := id
  memory := Memory.SameContents
  functions := Std.HashMap.Equiv

/-- Machines whose memories have the same contents are coupled lawfully. -/
theorem contents_lawful : contents.Lawful where
  respelling := Name.Respelling.id
  congruence := Memory.congruence_sameContents
  lookup := by
    intro fs gs h f
    rw [h.getElem?_eq]
    exact UserFunction.Respelled.rel_self gs[f]?
  define := by
    intro fs gs h f parameter body
    rw [contents, Expr.rename_id]
    exact h.insert f ⟨parameter, body⟩
  undefined := .rfl

/-- Loading a program leaves no difference but in the layout of tables. -/
theorem inStep_load (h : SameInheritance s t) (p : Program) :
    InStep contents p (s.load p) (t.load p) := by
  refine ⟨_, rfl, rfl, t.memory, t.functions, ?_, h.memory, h.functions⟩
  simp only [load, Stack.clear, contents, Program.rename_id, h.console, h.random, h.loopLimit,
    h.returnLimit, count, h.stepLimit]

/-- Machines in step have the same of everything. -/
theorem sameMachine_of_inStep (h : InStep contents p s t) : SameMachine s t := by
  obtain ⟨_, rfl, rfl, memory, functions, rfl, hmemory, hfunctions⟩ := h
  exact {
    console := rfl, memory := hmemory, functions := hfunctions, random := rfl, loopLimit := rfl,
    returnLimit := rfl, stepLimit := rfl, loops := rfl, returns := rfl,
    program := (Program.rename_id s.program).symm, data := rfl, cursor := rfl, flow := rfl,
    steps := rfl, interrupted := rfl, depth := rfl }

/-- A program runs alike on machines that agree on what stays when a program is over: after any number
of turns both runs go on or are over with the same result, and the machines agree in every part. -/
theorem execute_inheritance (h : SameInheritance s t) (p : Program) (turns : Nat) :
    Progress.Agree SameMachine (s.execute p turns) (t.execute p turns) :=
  (inStep_runFor contents_lawful turns (inStep_load h p)).mono fun _ _ => sameMachine_of_inStep

/-- A machine with two variables that has run nothing. -/
def rested : Machine :=
  { new {} 0 10 with
    memory.scalars := (Std.HashMap.emptyWithCapacity.insert "A$" (.text "X")).insert "B$" (.text "Y") }

/-- A machine with the same variables, set in the other order, that was interrupted in a function which
a subroutine of some other program had called. -/
def abandoned : Machine :=
  { rested with
    memory.scalars := (Std.HashMap.emptyWithCapacity.insert "B$" (.text "Y")).insert "A$" (.text "X")
    returns := { limit := 10, items := [3, 1] }
    program := { lines := [⟨10, [.data [.text "OLD"], .jump .gosub 10]⟩] }
    data := { items := #[.text "OLD"], starts := [(10, 0)], next := 1 }
    cursor := { line := 2, statement := 1 }
    flow := .jumped
    steps := 7
    interrupted := true
    depth := 2 }

/-- A program that finds out about old DATA, subroutines and loops. -/
def inquiry : Program where
  lines := [
    { number := 10
      statements := [
        .read [.scalar "C$"],
        .print [.scalar "C$", .binary .add (.scalar "A$") (.scalar "B$")] true] },
    { number := 20, statements := [.ifThen (.comparison .less (.scalar "C$") (.scalar "A$")) .comeBack] },
    { number := 30, statements := [.next none, .data [.text "NEW"]] }]

/-- A machine whose program was abandoned in a loop, beside one that has run nothing. -/
theorem execute_inheritance_abandoned :
    SameInheritance rested abandoned ∧
      Progress.Agree SameMachine (rested.execute inquiry 6) (abandoned.execute inquiry 6) := by
  have hscalars : rested.memory.scalars.Equiv abandoned.memory.scalars := by
    apply Std.HashMap.Equiv.of_forall_getElem?_eq
    intro n
    simp only [rested, abandoned, Std.HashMap.getElem?_insert, beq_iff_eq]
    by_cases hA : "A$" = n
    · subst hA
      simp
    · simp [hA]
  have hsame : SameInheritance rested abandoned :=
    ⟨rfl, ⟨hscalars, .rfl, rfl, rfl⟩, .rfl, rfl, rfl, rfl, rfl⟩
  exact ⟨hsame, execute_inheritance hsame inquiry 6⟩

end Machine

end CommodoreBasic
