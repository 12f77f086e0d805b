import CommodoreBasic.Proofs.Lockstep
import CommodoreBasic.Proofs.MemoryLaws

/-!
# Reachable machines

A machine is reachable if it has come about from a new one by loading and running programs, or by
anything less than that: the parts of a turn, single requests, clearing. A new machine may have any
random generator and any clock. In between, the world outside may replace the console, set the clock and
press BREAK. Within a turn a machine is met after any of its
requests, also where the body of a user function is about to be evaluated.

Every variable of a reachable machine holds a value of its own type.
-/

namespace CommodoreBasic

open CommodoreBasic.Action

namespace Memory

/-- Every variable holds a value of its own type. -/
def Typed (m : Memory) : Prop :=
  ∀ (key : Name) (v : Value), m.scalars[key]? = some v → v.fits key = true

variable {m : Memory}

/-- Only the variables matter. -/
theorem typed_of_scalars_eq {m' : Memory} (hm : m.Typed) (h : m'.scalars = m.scalars) : m'.Typed := by
  intro key v hv
  exact hm key v (h ▸ hv)

/-- The clock is none of them. -/
theorem typed_advanceClock (hm : m.Typed) : m.advanceClock.Typed := typed_of_scalars_eq hm rfl

/-- Without variables there is none of a wrong type. -/
theorem typed_clear (m : Memory) : m.clear.Typed := by
  intro key v hv
  simp [clear] at hv

/-- A value of its type may be stored. -/
theorem typed_insert (hm : m.Typed) {key : Name} {v : Value} (hv : v.fits key = true) :
    Typed { m with scalars := m.scalars.insert key v } := by
  intro key' v' hv'
  simp only [Std.HashMap.getElem?_insert, beq_iff_eq] at hv'
  split at hv'
  case isTrue heq =>
    cases hv'
    exact heq ▸ hv
  case isFalse => exact hm key' v' hv'

/-- Storing checks the type. -/
theorem typed_store (n : Name) (v : Value) (hm : m.Typed) : (store n v m).2.Typed := by
  obtain ⟨e, hstore⟩ | ⟨-, hfits, -, hstore⟩ := store_cases n v m <;> rw [hstore]
  · exact hm
  · exact typed_insert hm hfits

/-- Making an array concerns no variable. -/
theorem keeps_scalars_allocate (key : Name) (bounds : List Nat) :
    Keeps scalars (allocate key bounds) := by
  intro m
  unfold allocate
  split <;> rfl

/-- Neither does DIM. -/
theorem keeps_scalars_dimension (n : Name) (sizes : List Value) :
    Keeps scalars (dimension n sizes) := by
  intro m
  unfold dimension
  split
  · rfl
  · split
    · exact keeps_scalars_allocate n.fold _ m
    · rfl

/-- Neither does finding the place of an element. -/
theorem keeps_scalars_locate (key : Name) (subscripts : List Value) :
    Keeps scalars (locate key subscripts) := by
  intro m
  obtain h | ⟨-, count, h⟩ := locate_state key subscripts m <;> rw [h]
  rfl

/-- Neither does fetching an element. -/
theorem keeps_scalars_fetchElement (n : Name) (subscripts : List Value) :
    Keeps scalars (fetchElement n subscripts) := by
  intro m
  obtain h | ⟨-, count, h⟩ := fetchElement_state n subscripts m <;> rw [h]
  rfl

/-- Neither does storing in one. -/
theorem keeps_scalars_storeElement (n : Name) (subscripts : List Value) (v : Value) :
    Keeps scalars (storeElement n subscripts v) := by
  unfold storeElement
  cases hfits : v.fits n.fold with
  | false => exact fun _ => rfl
  | true =>
    refine (keeps_scalars_locate n.fold subscripts).bind fun offset m => ?_
    split
    · split <;> rfl
    · rfl

/-- No operation puts a value of the wrong type into a variable. -/
theorem congruence_typed : Congruence fun m m' => m = m' ∧ m.Typed where
  fetch h _ := h.1 ▸ rfl
  clear := by
    rintro m _ ⟨rfl, -⟩
    exact ⟨rfl, typed_clear m⟩
  advanceClock := by
    rintro m _ ⟨rfl, hm⟩
    exact ⟨rfl, typed_advanceClock hm⟩
  store n v := Agree.invariant fun _ hm => typed_store n v hm
  dimension n sizes :=
    Agree.invariant fun m hm => typed_of_scalars_eq hm (keeps_scalars_dimension n sizes m)
  fetchElement n subscripts :=
    Agree.invariant fun m hm => typed_of_scalars_eq hm (keeps_scalars_fetchElement n subscripts m)
  storeElement n subscripts v :=
    Agree.invariant fun m hm => typed_of_scalars_eq hm (keeps_scalars_storeElement n subscripts v m)

end Memory

namespace Machine

variable {m : Machine}

/-- A property that every part of a turn keeps, the statement being one of the program. -/
structure KeptByTurns (P : Machine → Prop) : Prop where
  settle {m : Machine} (h : P m) : P m.settle
  beginStep {m : Machine} (h : P m) : P (beginStep m).2
  exec {m : Machine} {pos : Position} {line : Line} {s : Statement} (h : P m)
    (hat : m.program.at? pos = some (line, s)) (patience : Nat) : P (s.exec perform patience m).2
  proceed {m : Machine} (h : P m) : P m.proceed.machine

/-- What comes before a statement leaves the program as it is. -/
theorem program_beginStep (m : Machine) : (beginStep m).2.program = m.program := by
  unfold beginStep
  split
  · rfl
  · dsimp only
    split <;> rfl

/-- A turn keeps the property, whether it is the last or not. -/
theorem KeptByTurns.turn {P : Machine → Prop} (hP : KeptByTurns P) (hm : P m) : P m.turn.machine := by
  rw [turn_eq]
  cases hat : m.settle.program.at? m.settle.cursor with
  | none => exact hP.settle hm
  | some fetched =>
    obtain ⟨line, s⟩ := fetched
    have hbegin := hP.beginStep (hP.settle hm)
    rw [← program_beginStep] at hat
    dsimp only
    rw [step_apply]
    rcases hbegun : Machine.beginStep m.settle with ⟨_ | ⟨⟨⟩⟩, m'⟩ <;> rw [hbegun] at hbegin hat
    · exact hbegin
    · have hexec := hP.exec hbegin hat m'.patience
      dsimp only at hexec ⊢
      rcases hdone : s.exec Machine.perform m'.patience m' with ⟨_ | ⟨⟨⟩⟩, m''⟩ <;>
        rw [hdone] at hexec
      · exact hexec
      · exact hP.proceed hexec

/-- What every turn keeps a run keeps. -/
theorem KeptByTurns.runFor {P : Machine → Prop} (hP : KeptByTurns P) (hm : P m) (turns : Nat) :
    P (m.runFor turns).machine := by
  induction turns generalizing m with
  | zero => exact hm
  | succ turns ih =>
    have hturn := hP.turn hm
    rw [Machine.runFor]
    cases h : m.turn with
    | running m' =>
      rw [h] at hturn
      exact ih hturn
    | finished result m' =>
      rw [h] at hturn
      exact hturn

/-- The machine has come about from a new one. -/
inductive Reachable : Machine → Prop where
  | new (console : Console) (stepLimit stackLimit : Nat) (random : Random) (clock : Clock) :
    Reachable (new console stepLimit stackLimit random clock)
  | load {m : Machine} (h : Reachable m) (p : Program) : Reachable (m.load p)
  | clear {m : Machine} (h : Reachable m) : Reachable m.clear
  | settle {m : Machine} (h : Reachable m) : Reachable m.settle
  | beginStep {m : Machine} (h : Reachable m) : Reachable (beginStep m).2
  | perform {m : Machine} (h : Reachable m) (a : Answer) (r : Request a) : Reachable (perform a r m).2
  | proceed {m : Machine} (h : Reachable m) : Reachable m.proceed.machine
  /-- The body of a user function is evaluated at a greater depth. -/
  | nested {m : Machine} (h : Reachable m) : Reachable { m with depth := m.depth + 1 }
  /-- What the world outside may do between any two of these. -/
  | exchange {m : Machine} (h : Reachable m) (console : Console) (clock : Clock) (interrupted : Bool) :
    Reachable { m with console, interrupted, memory := { m.memory with clock } }

/-- A statement leads to reachable machines. -/
theorem Reachable.exec (hm : m.Reachable) (s : Statement) (patience : Nat) :
    (s.exec Machine.perform patience m).2.Reachable := by
  have hask : Handler.AgreeOn s.mayAsk (fun m m' => m = m' ∧ m.Reachable) Machine.perform
      Machine.perform := fun a r _ => Agree.invariant fun _ h => h.perform a r
  exact (Statement.exec_agree s patience hask m m ⟨rfl, hm⟩).2.2

/-- A turn leads from a machine that a run reaches to another such machine. -/
theorem keptByTurns_reachable : KeptByTurns Reachable where
  settle hm := hm.settle
  beginStep hm := hm.beginStep
  exec hm _ patience := hm.exec _ patience
  proceed hm := hm.proceed

/-- The machines with which a program runs are reachable. -/
theorem Reachable.execute (hm : m.Reachable) (p : Program) (turns : Nat) :
    (m.execute p turns).machine.Reachable :=
  keptByTurns_reachable.runFor (hm.load p) turns

/-- A machine compared with itself, the variables of which are of their own types. -/
def typed : Likeness where
  rename := id
  memory m m' := m = m' ∧ m.Typed
  functions := Eq

/-- Machines whose variables have their types are coupled lawfully with themselves. -/
theorem typed_lawful : typed.Lawful where
  respelling := Name.Respelling.id
  congruence := Memory.congruence_typed
  lookup := by
    rintro fs _ rfl f
    exact UserFunction.Respelled.rel_self fs[f]?
  define := by
    rintro fs _ rfl f parameter body
    rw [typed, Expr.rename_id]
    rfl
  undefined := rfl

/-- Every request leaves the variables with values of their types. -/
theorem typed_perform (hm : m.memory.Typed) (a : Answer) (r : Request a) :
    (perform a r m).2.memory.Typed := by
  have hself : Lockstep typed m.program m.count m.count m m :=
    ⟨rfl, rfl, m.memory, m.functions, by rw [typed, Program.rename_id]; rfl, ⟨rfl, hm⟩, rfl⟩
  obtain ⟨-, -, -, _, _, -, ⟨-, htyped⟩, -⟩ := lockstep_perform typed_lawful a r m m hself
  exact htyped

/-- The variables of a reachable machine hold values of their own types. -/
theorem Reachable.typed (hm : m.Reachable) : m.memory.Typed := by
  induction hm with
  | new => exact fun key v hv => by simp [Machine.new] at hv
  | load _ _ ih => exact ih
  | clear => exact Memory.typed_clear _
  | settle _ ih => exact ih
  | @beginStep m _ ih =>
    unfold Machine.beginStep
    split
    · exact ih
    · dsimp only
      split <;> exact ih
  | perform _ a r ih => exact typed_perform ih a r
  | @proceed m _ ih =>
    unfold Machine.proceed
    cases m.flow <;> exact ih
  | nested _ ih => exact ih
  | exchange _ _ _ _ ih => exact ih

end Machine

end CommodoreBasic
