import CommodoreBasic.Machine.Run
import CommodoreBasic.Proofs.Blocks
import CommodoreBasic.Proofs.Coupling
import CommodoreBasic.Proofs.LoopStack

/-!
# Structured loops

What a block means is said here without lines, cursor, stack of loops or jumps: a loop runs its body
again and again until its counter has passed the limit. Since blocks need not end, they are given a
number of ticks of which each statement takes one, and a block is cut off when none is left. BREAK is
looked for before each statement, and the clock of the machine goes on with it.

The main statement is that a program which consists of the statements of a block, on whatever lines
they stand, runs like the block. A step lemma for each kind of statement relates one turn of the
machine to one tick, and the induction is over the block and, for a loop, over its rounds.
-/

namespace CommodoreBasic

open CommodoreBasic.Action

/-- How things stand with a computation that is given ticks: it ended with a result and ticks left
over, it failed, or it was cut off. -/
inductive Standing (α : Type) where
  | ended (a : α) (left : Nat) (m : Machine)
  | failed (e : Error) (m : Machine)
  | running (m : Machine)

/-- A computation that is given ticks. -/
def Timed (α : Type) : Type := Nat → Machine → Standing α

namespace Timed

variable {α β : Type}

/-- A result that takes no ticks. -/
protected def pure (a : α) : Timed α := fun n m => .ended a n m

/-- One computation after another, which is given the ticks that the first leaves. -/
protected def bind (x : Timed α) (f : α → Timed β) : Timed β := fun n m =>
  match x n m with
  | .ended a n m => f a n m
  | .failed e m => .failed e m
  | .running m => .running m

/-- Computations that are given ticks can be put one after another. -/
instance : Monad Timed where
  pure := Timed.pure
  bind := Timed.bind

/-- Takes a tick. -/
def tick : Timed Unit := fun n m =>
  match n with
  | 0 => .running m
  | n + 1 => .ended () n m

/-- An action that fails if BREAK was pressed before it. Otherwise it finds the clock advanced. -/
def unlessBreak (x : Action Machine α) : Action Machine α := fun m =>
  if m.interrupted then (raise .breakPressed, { m with interrupted := false })
  else x m.advanceClock

/-- An action that takes a tick and fails if BREAK was pressed before it. -/
def step (x : Action Machine α) : Timed α := fun n m =>
  match n with
  | 0 => .running m
  | n + 1 =>
    match unlessBreak x m with
    | (.ok a, m) => .ended a n m
    | (.error e, m) => .failed e m

/-- Does `body` and goes on doing it as long as `again` says so, at most `rounds` times. -/
def repeatUpTo (body : Timed Unit) (again : Timed Bool) : (rounds : Nat) → Timed Unit
  | 0 => fun _ m => .running m
  | rounds + 1 => do
    body
    if ← again then repeatUpTo body again rounds

/-- Does `body` and goes on doing it as long as `again` says so. If `again` takes a tick, there are no
more rounds than ticks. -/
def repeatWhile (body : Timed Unit) (again : Timed Bool) : Timed Unit := fun n m =>
  repeatUpTo body again (n + 1) n m

end Timed

namespace Block

/-- The test that a value of the counter has to pass. -/
def passes (limit step x : Float) : Bool := if step > 0 then x ≤ limit else x ≥ limit

/-- Sets the counter of a loop to its first value, unless the step is zero. -/
def setCounter (counter : Name) (first step : Float) : Action Machine Unit := do
  if step == 0 then raise .illegalQuantity
  Machine.onMemory (Memory.store counter.fold (.number first))

/-- Finds the first value, the limit and the step of a loop in this order and sets the counter. -/
def enter (counter : Name) (start limit : Expr) (step : Option Expr) :
    Action Machine (Float × Float × Float) := do
  let a ← start.evalNumber Machine.perform
  let b ← limit.evalNumber Machine.perform
  let s ← match step with
    | some e => e.evalNumber Machine.perform
    | none => pure 1
  setCounter counter a s
  return (a, b, s)

/-- Steps the counter of a loop if the loop goes on, which is the result. -/
def advance (counter : Name) (limit step : Float) : Action Machine Bool := fun m =>
  match m.memory.fetch counter.fold with
  | .text _ => (raise .typeMismatch, m)
  | .number x =>
    if passes limit step (x + step) then
      match Machine.onMemory (Memory.store counter.fold (.number (x + step))) m with
      | (.ok (), m) => (.ok true, m)
      | (.error e, m) => (.error e, m)
    else (.ok false, m)

/-- What a block does. -/
def run : Block → Timed Unit
  | done => pure ()
  | simple s rest => do
    Timed.step fun m => s.exec Machine.perform m.patience m
    rest.run
  | loop counter start limit step body _ rest => do
    let (a, b, s) ← Timed.step (enter counter start limit step)
    if passes b s a then
      Timed.repeatWhile body.run (Timed.step (advance counter b s))
    rest.run

/-- The machine before a block: no program is loaded, and the block's DATA are to be read. -/
def start (b : Block) (m : Machine) : Machine :=
  { m.load {} with data := { items := b.dataItems.toArray } }

/-- Runs a block for at most `turns` ticks. The end takes a tick to be noticed. -/
def execute (b : Block) (m : Machine) (turns : Nat) : Standing Unit :=
  (do b.run; Timed.tick : Timed Unit) turns (b.start m)

end Block

namespace Machine

variable {α β : Type} {p : Program} {limit k n : Nat} {pos : Position} {loops : List Loop}
variable {m σ : Machine}

/-- The machines agree on BREAK and on all that simple statements and evaluation can see. -/
structure SameStore (m σ : Machine) : Prop where
  console : m.console = σ.console
  memory : m.memory = σ.memory
  functions : m.functions = σ.functions
  random : m.random = σ.random
  depth : m.depth = σ.depth
  returnsLimit : m.returns.limit = σ.returns.limit
  items : m.data.items = σ.data.items
  next : m.data.next = σ.data.next
  interrupted : m.interrupted = σ.interrupted

/-- Machines with the same store are coupled, whatever else is known of the first. -/
theorem sameStore_fullCoupling {P : Machine → Prop} (hP : Insensitive P) :
    FullCoupling Eq id fun m σ => SameStore m σ ∧ P m where
  congruence := Memory.Congruence.eq
  respelling := Name.Respelling.id
  memory h := h.1.memory
  random h := h.1.random
  depth h := h.1.depth
  limit h := h.1.returnsLimit
  functions h f := h.1.functions ▸ UserFunction.Respelled.rel_self _
  setMemory h _ _ hmemory := ⟨{ h.1 with memory := hmemory }, hP.setMemory h.2 _⟩
  setRandom h random := ⟨{ h.1 with random := rfl }, hP.setRandom h.2 random⟩
  setDepth h depth := ⟨{ h.1 with depth := rfl }, hP.setDepth h.2 depth⟩
  console := by
    rintro α act m σ ⟨h, hm⟩
    unfold onConsole
    dsimp only
    refine ⟨by rw [h.console], ⟨?_, hP.setConsole hm _ _⟩⟩
    exact { h with
      console := by rw [h.console]
      interrupted := by
        dsimp only
        rw [h.interrupted, h.console] }
  read := by
    rintro m σ ⟨h, hm⟩
    have hread := hP.read hm
    unfold readData DataPool.read? at hread ⊢
    rw [h.items, h.next] at hread ⊢
    generalize σ.data.items[σ.data.next]? = item at hread ⊢
    cases item with
    | none => exact ⟨rfl, h, hm⟩
    | some v => exact ⟨rfl, { h with items := rfl, next := rfl }, hread⟩
  define := by
    rintro f parameter body m σ ⟨h, hm⟩
    rw [Expr.rename_id]
    refine ⟨rfl, { h with functions := ?_ }, hP.setFunctions hm _⟩
    change m.functions.insert f _ = σ.functions.insert f _
    rw [h.functions]
    rfl

/-- The machine carries out the statement at a position of a program inside some loops. -/
structure Placed (p : Program) (limit : Nat) (pos : Position) (loops : List Loop) (m : Machine) :
    Prop where
  program : m.program = p
  cursor : m.cursor = pos
  items : m.loops.items = loops
  limit : m.loops.limit = limit
  flow : m.flow = .advance
  stepLimit : m.stepLimit = none

/-- What simple requests change does not matter to where the machine is. -/
theorem insensitive_placed (p : Program) (limit : Nat) (pos : Position) (loops : List Loop) :
    Insensitive (Placed p limit pos loops) where
  setMemory h _ := { h with }
  setRandom h _ := { h with }
  setDepth h _ := { h with }
  setFunctions h _ := { h with }
  setConsole h _ _ := { h with }
  read := by
    intro m h
    unfold readData
    split
    · exact { h with }
    · exact h

/-- The machine is about to fetch the `k`-th statement of a program inside some loops, with the store
of `σ`. -/
structure Following (p : Program) (limit k : Nat) (loops : List Loop) (m σ : Machine) : Prop where
  store : SameStore m σ
  program : m.program = p
  settled : p.settle m.cursor = p.place k
  items : m.loops.items = loops
  limit : m.loops.limit = limit
  flow : m.flow = .advance
  stepLimit : m.stepLimit = none

/-- The run of `n` turns from `m` comes to what the computation of `n` ticks comes to, and where this
has ended the machines are related by `post`. -/
def Tracks (n : Nat) (m : Machine) (post : α → Machine → Machine → Prop) : Standing α → Prop
  | .ended a left σ => left ≤ n ∧ ∃ m', m.runFor n = m'.runFor left ∧ post a m' σ
  | .failed e σ => ∃ line m', m.runFor n = .finished (.error (e.inLine line)) m' ∧ SameStore m' σ
  | .running σ => ∃ m', m.runFor n = .running m' ∧ SameStore m' σ

namespace Tracks

variable {post : α → Machine → Machine → Prop} {post' : β → Machine → Machine → Prop}

/-- A run that leads to one that tracks a computation tracks it, too. -/
theorem of_runFor {m' : Machine} {left : Nat} {st : Standing α} (hleft : left ≤ n)
    (heq : m.runFor n = m'.runFor left) (h : Tracks left m' post st) : Tracks n m post st := by
  cases st with
  | ended a left' σ =>
    obtain ⟨hle, m'', heq', hpost⟩ := h
    exact ⟨hle.trans hleft, m'', heq.trans heq', hpost⟩
  | failed e σ =>
    obtain ⟨line, m'', heq', hstore⟩ := h
    exact ⟨line, m'', heq.trans heq', hstore⟩
  | running σ =>
    obtain ⟨m'', heq', hstore⟩ := h
    exact ⟨m'', heq.trans heq', hstore⟩

/-- Sequences are tracked part by part. -/
theorem bind {x : Timed α} {f : α → Timed β} (hx : Tracks n m post (x n σ))
    (hf : ∀ a left m' σ', x n σ = .ended a left σ' → post a m' σ' →
      Tracks left m' post' (f a left σ')) :
    Tracks n m post' ((x >>= f) n σ) := by
  change Tracks n m post' (Timed.bind x f n σ)
  unfold Timed.bind
  cases hst : x n σ with
  | ended a left σ' =>
    rw [hst] at hx
    obtain ⟨hleft, m', heq, hpost⟩ := hx
    exact of_runFor hleft heq (hf a left m' σ' hst hpost)
  | failed e σ' =>
    rw [hst] at hx
    exact hx
  | running σ' =>
    rw [hst] at hx
    exact hx

end Tracks

/-- A statement and an action came to the same: both failed alike, or the run goes on with related
machines. -/
def Mirrors (post : α → Machine → Machine → Prop) :
    Except Error Unit × Machine → Except Error α × Machine → Prop
  | (.error e, m), (.error e', σ) => e = e' ∧ SameStore m σ
  | (.ok (), m), (.ok a, σ) => ∃ m', m.proceed = .running m' ∧ post a m' σ
  | _, _ => False

/-- One turn fetches the statement that the machine has come to. -/
theorem turn_of_following (h : Following p limit k loops m σ)
    (hplain : ∀ s ∈ p.lines.flatMap Line.statements, s.stripIfs = s) {s : Statement}
    (hs : p.flatten[k]? = some (pos, s)) :
    ∃ line, m.turn = match step s { m with cursor := pos } with
      | (.ok (), m') => m'.proceed
      | (.error e, m') => .finished (.error (e.inLine line)) m' := by
  obtain ⟨line, s₀, hat, hstrip⟩ := Program.mem_flatten_iff.mp (List.mem_of_getElem? hs)
  have hmem : s₀ ∈ p.lines.flatMap Line.statements := by
    obtain ⟨hline, hget⟩ := Program.at?_eq_some_iff.mp hat
    exact List.mem_flatMap.mpr ⟨line, List.mem_of_getElem? hline, List.mem_of_getElem? hget⟩
  obtain rfl : s₀ = s := (hplain s₀ hmem).symm.trans hstrip
  have hcursor : p.settle m.cursor = pos := by
    rw [h.settled, Program.place, hs]
    rfl
  have hsettle : m.settle = { m with cursor := pos } := by rw [settle, h.program, hcursor]
  have hfetch : m.program.at? pos = some (line, s₀) := by
    rw [h.program]
    exact hat
  refine ⟨line.number, ?_⟩
  rcases hstep : step s₀ { m with cursor := pos } with ⟨_ | ⟨⟨⟩⟩, m'⟩ <;>
    simp only [turn, hsettle, hfetch, hstep]

/-- Unless BREAK was pressed, the clock goes on and the statement that was fetched is carried out. -/
theorem step_of_following (h : Following p limit k loops m σ) (hfree : σ.interrupted = false)
    (s : Statement) :
    ∃ m₁, SameStore m₁ σ.advanceClock ∧ Placed p limit pos loops m₁ ∧
      step s { m with cursor := pos } = s.exec perform σ.advanceClock.patience m₁ := by
  refine ⟨advanceClock { m with cursor := pos, steps := m.steps + 1 },
    { h.store with memory := congrArg Memory.advanceClock h.store.memory },
    { h with cursor := rfl }, ?_⟩
  have hbegin : beginStep { m with cursor := pos } =
      (.ok (), advanceClock { m with cursor := pos, steps := m.steps + 1 }) := by
    simp only [beginStep, h.store.interrupted, hfree, h.stepLimit, Bool.false_eq_true, ↓reduceIte,
      Option.any_none]
  have hpatience : σ.advanceClock.patience = m.patience := by
    rw [patience, patience, h.store.console]
    rfl
  rw [hpatience]
  exact bind_of_ok hbegin

/-- If BREAK was pressed, the statement that was fetched is not carried out. -/
theorem step_of_interrupted (h : m.interrupted = true) (s : Statement) :
    step s m = (raise .breakPressed, { m with interrupted := false }) := by
  have hbegin : beginStep m = (raise .breakPressed, { m with interrupted := false }) := if_pos h
  exact bind_of_error hbegin

/-- Behind a statement the next one in the text follows. -/
theorem Placed.proceed (h : Placed p limit pos loops m) (hstore : SameStore m σ) {s : Statement}
    (hfetch : p.flatten[k]? = some (pos, s)) :
    ∃ m', m.proceed = .running m' ∧ Following p limit (k + 1) loops m' σ := by
  refine ⟨{ m with cursor := m.cursor.next, flow := .advance }, ?_,
    { h with store := { hstore with }, settled := ?_, flow := rfl }⟩
  · rw [Machine.proceed, h.flow]
    rfl
  · rw [h.cursor]
    exact Program.settle_next hfetch

/-- A jump leads to the statement at which its target settles. -/
theorem Placed.proceed_jumpTo (h : Placed p limit pos loops m) (hstore : SameStore m σ)
    {target : Position} (htarget : p.settle target = p.place k) :
    ∃ m', (m.jumpTo target).proceed = .running m' ∧ Following p limit k loops m' σ :=
  ⟨_, rfl, { h with store := { hstore with }, settled := htarget, flow := rfl }⟩

/-- What comes before the end of a statement and of an action may agree step by step. -/
theorem mirrors_bind {R : Machine → Machine → Prop} {post : α → Machine → Machine → Prop}
    {x : Action Machine β} {f : β → Action Machine Unit} {g : β → Action Machine α}
    (hstore : ∀ m σ, R m σ → SameStore m σ) (hx : Agree R x x)
    (hf : ∀ b m σ, R m σ → Mirrors post (f b m) (g b σ)) (h : R m σ) :
    Mirrors post ((x >>= f) m) ((x >>= g) σ) := by
  obtain ⟨hresult, hstate⟩ := hx m σ h
  rw [bind_apply, bind_apply]
  generalize x m = r, x σ = q at hresult hstate ⊢
  obtain ⟨_ | b, m'⟩ := r <;> obtain ⟨_, σ'⟩ := q <;> cases hresult
  · exact ⟨rfl, hstore m' σ' hstate⟩
  · exact hf b m' σ' hstate

/-- A loop goes on exactly if another pass is made. -/
theorem continues_eq_passes (l : Loop) (x : Float) :
    l.continues x = Block.passes l.limit l.step x := rfl

/-- The counter is set unless the step is zero. -/
theorem setCounter_apply (counter : Name) (first step : Float) (σ : Machine) :
    Block.setCounter counter first step σ =
      if step == 0 then (raise .illegalQuantity, σ)
      else onMemory (Memory.store counter.fold (.number first)) σ := by
  unfold Block.setCounter
  cases step == 0 <;> rfl

section Enter

variable (counter : Name) {a b step : Float}

/-- A loop that is entered is put on top of the others. -/
theorem enterLoop_of_passes (h : Placed p limit pos loops m) (hstore : SameStore m σ)
    (hroom : loops.length < limit) (hpasses : Block.passes b step a = true) :
    ∃ m', enterLoop counter a b step m = (.ok (), m') ∧
      Placed p limit pos (⟨counter, b, step, pos.next⟩ :: loops) m' ∧ SameStore m' σ := by
  have hpush : m.loops.push ⟨counter, b, step, pos.next⟩ =
      .ok { m.loops with items := ⟨counter, b, step, pos.next⟩ :: m.loops.items } := by
    unfold Stack.push Stack.size
    rw [if_pos (by rw [h.items, h.limit]; exact hroom)]
  refine ⟨{ m with loops := { m.loops with items := ⟨counter, b, step, pos.next⟩ :: m.loops.items } },
    ?_, { h with items := by rw [h.items] }, { hstore with }⟩
  unfold enterLoop
  dsimp only
  rw [continues_eq_passes, if_pos hpasses, h.cursor, ← Position.next, hpush]

/-- A loop that is not entered is left behind. -/
theorem enterLoop_of_not_passes {exit : Position} (h : Placed p limit pos loops m)
    (hexit : p.loopExit? pos = some exit) (hpasses : ¬Block.passes b step a = true) :
    enterLoop counter a b step m = (.ok (), m.jumpTo exit) := by
  unfold enterLoop
  dsimp only
  rw [continues_eq_passes, if_neg hpasses, h.program, h.cursor, hexit]

end Enter

/-- FOR starts the loop on top of the others, or passes it over. -/
theorem mirrors_beginLoop {counter : Name} {exit : Position} {k' : Nat} {s : Statement}
    (hfetch : p.flatten[k]? = some (pos, s)) (hexit : p.loopExit? pos = some exit)
    (hk' : p.settle exit = p.place k') (hnew : counter.fold ∉ loops.map Loop.counter)
    (hroom : loops.length < limit) (a b step : Float) (hstore : SameStore m σ)
    (hplaced : Placed p limit pos loops m) :
    Mirrors (fun (a, b, step) m' σ' =>
        if Block.passes b step a then
          Following p limit (k + 1) (⟨counter.fold, b, step, pos.next⟩ :: loops) m' σ'
        else Following p limit k' loops m' σ')
      (beginLoop counter a b step m)
      ((do Block.setCounter counter a step; return (a, b, step)) σ) := by
  rw [beginLoop_eq, bind_apply, setCounter_apply]
  split
  · exact ⟨rfl, hstore⟩
  rw [onMemory_apply, ← hstore.memory]
  rcases Memory.store counter.fold (.number a) m.memory with ⟨_ | ⟨⟨⟩⟩, memory⟩
  · exact ⟨rfl, { hstore with memory := rfl }⟩
  dsimp only
  have hitems : (m.outsideLoop counter memory).loops.items = loops := by
    change Loop.around counter.fold m.loops.items = loops
    rw [hplaced.items, Loop.around_of_notMem hnew]
  have hout : Placed p limit pos loops (m.outsideLoop counter memory) :=
    { hplaced with items := hitems }
  have hstore' : SameStore (m.outsideLoop counter memory) { σ with memory } :=
    { hstore with memory := rfl }
  generalize m.outsideLoop counter memory = m', { σ with memory } = σ' at hout hstore' ⊢
  by_cases hpasses : Block.passes b step a = true
  · obtain ⟨m'', henter, hin, hstore''⟩ := enterLoop_of_passes counter.fold hout hstore' hroom hpasses
    rw [henter]
    obtain ⟨m₃, hproceed, hfollowing⟩ := hin.proceed hstore'' hfetch
    refine ⟨m₃, hproceed, ?_⟩
    dsimp only
    rw [if_pos hpasses]
    exact hfollowing
  · rw [enterLoop_of_not_passes counter.fold hout hexit hpasses]
    obtain ⟨m₃, hproceed, hfollowing⟩ := hout.proceed_jumpTo hstore' hk'
    refine ⟨m₃, hproceed, ?_⟩
    dsimp only
    rw [if_neg hpasses]
    exact hfollowing

/-- NEXT goes back behind the FOR of the innermost loop, or leaves that loop. -/
theorem mirrors_nextLoop {counter : Name} {closing : Option Name} {b step : Float}
    {resume : Position} {k' : Nat} {s : Statement} (hfetch : p.flatten[k]? = some (pos, s))
    (hclosing : ∀ n ∈ closing, n.fold = counter.fold) (hk' : p.settle resume = p.place k')
    (hstore : SameStore m σ)
    (hplaced : Placed p limit pos (⟨counter.fold, b, step, resume⟩ :: loops) m) :
    Mirrors (fun again m' σ' =>
        if again then Following p limit k' (⟨counter.fold, b, step, resume⟩ :: loops) m' σ'
        else Following p limit (k + 1) loops m' σ')
      (nextLoop closing m) (Block.advance counter b step σ) := by
  have hstepped : Loop.steppedBy closing m.loops.items = ⟨counter.fold, b, step, resume⟩ :: loops := by
    rw [hplaced.items]
    cases closing with
    | none => rfl
    | some n =>
      rw [Loop.steppedBy, hclosing n rfl]
      exact List.dropWhile_cons_of_neg (by simp)
  have hself : { m with loops := { m.loops with items := ⟨counter.fold, b, step, resume⟩ :: loops } } =
      m := by rw [← hplaced.items]
  rw [nextLoop_eq, hstepped]
  dsimp only
  rw [hself, stepLoop_eq hplaced.items]
  unfold Block.advance
  rw [← hstore.memory]
  cases m.memory.fetch counter.fold with
  | text t => exact ⟨rfl, hstore⟩
  | number x =>
    dsimp only
    rw [continues_eq_passes]
    by_cases hpasses : Block.passes b step (x + step) = true
    · rw [if_pos hpasses, if_pos hpasses, onMemory_apply, ← hstore.memory]
      rcases Memory.store counter.fold (.number (x + step)) m.memory with ⟨_ | ⟨⟨⟩⟩, memory⟩
      · exact ⟨rfl, { hstore with memory := rfl }⟩
      · have hplaced' : Placed p limit pos (⟨counter.fold, b, step, resume⟩ :: loops)
            { m with memory } := { hplaced with }
        have hstore' : SameStore { m with memory } { σ with memory } := { hstore with memory := rfl }
        exact hplaced'.proceed_jumpTo hstore' hk'
    · rw [if_neg hpasses, if_neg hpasses]
      have hplaced' : Placed p limit pos loops { m with loops := { m.loops with items := loops } } :=
        { hplaced with items := rfl }
      have hstore' : SameStore { m with loops := { m.loops with items := loops } } σ :=
        { hstore with }
      exact hplaced'.proceed hstore' hfetch

section Steps

variable (hplain : ∀ s ∈ p.lines.flatMap Line.statements, s.stripIfs = s)
include hplain

/-- If a statement mirrors an action, one turn tracks one tick. -/
theorem track_step {post : α → Machine → Machine → Prop} {x : Action Machine α} {s : Statement}
    (h : Following p limit k loops m σ) (hs : p.flatten[k]? = some (pos, s))
    (hmirrors : ∀ m₁ σ₁, SameStore m₁ σ₁ ∧ Placed p limit pos loops m₁ →
      Mirrors post (s.exec perform σ₁.patience m₁) (x σ₁)) (n : Nat) :
    Tracks n m post (Timed.step x n σ) := by
  cases n with
  | zero => exact ⟨m, rfl, h.store⟩
  | succ n =>
    obtain ⟨line, hturn⟩ := turn_of_following h hplain hs
    have hboth : Mirrors post (step s { m with cursor := pos }) (Timed.unlessBreak x σ) := by
      unfold Timed.unlessBreak
      split
      case isTrue hbreak =>
        have hstep := step_of_interrupted (m := { m with cursor := pos })
          (h.store.interrupted.trans hbreak) s
        rw [hstep]
        exact ⟨rfl, { h.store with interrupted := rfl }⟩
      case isFalse hfree =>
        obtain ⟨m₁, hstore, hplaced, hstep⟩ :=
          step_of_following h (Bool.eq_false_iff.mpr hfree) s
        rw [hstep]
        exact hmirrors m₁ _ ⟨hstore, hplaced⟩
    unfold Timed.step
    dsimp only
    generalize step s { m with cursor := pos } = r, Timed.unlessBreak x σ = q at hboth hturn ⊢
    obtain ⟨_ | ⟨⟨⟩⟩, m'⟩ := r <;> obtain ⟨_ | a, σ'⟩ := q
    · obtain ⟨rfl, hstore'⟩ := hboth
      refine ⟨line, m', ?_, hstore'⟩
      rw [runFor, hturn]
    · cases hboth
    · cases hboth
    · obtain ⟨m'', hproceed, hpost⟩ := hboth
      refine ⟨Nat.le_succ n, m'', ?_, hpost⟩
      rw [runFor, hturn]
      dsimp only
      rw [hproceed]

/-- The statement after a simple one is the next in the text. -/
theorem track_simple {s : Statement} (hs : s.isSimple = true)
    (h : Following p limit k loops m σ) (hfetch : p.flatten[k]? = some (pos, s)) (n : Nat) :
    Tracks n m (fun _ => Following p limit (k + 1) loops)
      (Timed.step (fun m => s.exec perform m.patience m) n σ) := by
  refine track_step hplain h hfetch (fun m₁ σ hm₁ => ?_) n
  have hcoupling := sameStore_fullCoupling (insensitive_placed p limit pos loops)
  have hagree := hcoupling.exec_agree hs σ.patience m₁.depth m₁ σ ⟨hm₁, rfl⟩
  change Mirrors _ _ (s.exec perform σ.patience σ)
  generalize s.exec perform σ.patience m₁ = r, s.exec perform σ.patience σ = q at hagree ⊢
  obtain ⟨_ | ⟨⟨⟩⟩, m'⟩ := r <;> obtain ⟨_, σ'⟩ := q <;> obtain ⟨⟨⟩, ⟨hstore, hplaced⟩, -⟩ := hagree
  · exact ⟨rfl, hstore⟩
  · exact hplaced.proceed hstore hfetch

/-- FOR finds its values as the loop of a block does. -/
theorem track_enter {counter : Name} {start stop : Expr} {step : Option Expr} {exit : Position}
    {k' : Nat} (h : Following p limit k loops m σ)
    (hfetch : p.flatten[k]? = some (pos, .loop counter start stop step))
    (hexit : p.loopExit? pos = some exit) (hk' : p.settle exit = p.place k')
    (hnew : counter.fold ∉ loops.map Loop.counter) (hroom : loops.length < limit) (n : Nat) :
    Tracks n m (fun (a, b, step) m' σ' =>
        if Block.passes b step a then
          Following p limit (k + 1) (⟨counter.fold, b, step, pos.next⟩ :: loops) m' σ'
        else Following p limit k' loops m' σ')
      (Timed.step (Block.enter counter start stop step) n σ) := by
  refine track_step hplain h hfetch (fun m₁ σ₁ hm₁ => ?_) n
  have hcoupling := sameStore_fullCoupling (insensitive_placed p limit pos loops)
  have hnumber (e : Expr) : Agree (fun m σ => SameStore m σ ∧ Placed p limit pos loops m)
      (e.evalNumber perform) (e.evalNumber perform) :=
    agree_of_atDepth fun d => hcoupling.evalNumber_agree e d
  have hbegin (a b step : Float) (m σ : Machine) (h : SameStore m σ ∧ Placed p limit pos loops m) :
      Mirrors _ (perform .done (.beginLoop counter a b step) m) _ :=
    mirrors_beginLoop hfetch hexit hk' hnew hroom a b step h.1 h.2
  refine mirrors_bind (fun _ _ h => h.1) (hnumber start) (fun a m σ hm => ?_) hm₁
  refine mirrors_bind (fun _ _ h => h.1) (hnumber stop) (fun b m σ hm => ?_) hm
  cases step with
  | none =>
    simp only [pure_bind]
    -- the literal would be computed with
    generalize (1 : Float) = one
    exact hbegin a b one m σ hm
  | some e => exact mirrors_bind (fun _ _ h => h.1) (hnumber e) (hbegin a b) hm

/-- NEXT tracks the step to the next pass. -/
theorem track_advance {counter : Name} {closing : Option Name} {b step : Float}
    {resume : Position} {k' : Nat}
    (h : Following p limit k (⟨counter.fold, b, step, resume⟩ :: loops) m σ)
    (hfetch : p.flatten[k]? = some (pos, .next closing))
    (hclosing : ∀ n ∈ closing, n.fold = counter.fold) (hk' : p.settle resume = p.place k')
    (n : Nat) :
    Tracks n m (fun again m' σ' =>
        if again then Following p limit k' (⟨counter.fold, b, step, resume⟩ :: loops) m' σ'
        else Following p limit (k + 1) loops m' σ')
      (Timed.step (Block.advance counter b step) n σ) :=
  track_step hplain h hfetch
    (fun _ _ hm₁ => mirrors_nextLoop hfetch hclosing hk' hm₁.1 hm₁.2) n

end Steps

/-- A step takes a tick. -/
theorem lt_of_step_ended {x : Action Machine α} {a : α} {left : Nat} {σ' : Machine}
    (h : Timed.step x n σ = .ended a left σ') : left < n := by
  unfold Timed.step at h
  cases n with
  | zero => cases h
  | succ n =>
    dsimp only at h
    split at h <;> cases h
    exact Nat.lt_succ_self left

/-- The rounds of a loop are tracked one after the other. Each of them takes the tick of its NEXT, so
the bound on their number is never reached. -/
theorem track_repeatUpTo {inside after : Machine → Machine → Prop}
    {atNext : Machine → Machine → Prop} {body : Timed Unit} {x : Action Machine Bool}
    (hbody : ∀ n m σ, inside m σ → Tracks n m (fun _ => atNext) (body n σ))
    (hnext : ∀ n m σ, atNext m σ →
      Tracks n m (fun again m' σ' => if again then inside m' σ' else after m' σ') (Timed.step x n σ))
    {rounds : Nat} (hrounds : n < rounds) (h : inside m σ) :
    Tracks n m (fun _ => after) (Timed.repeatUpTo body (Timed.step x) rounds n σ) := by
  induction rounds generalizing n m σ with
  | zero => cases hrounds
  | succ rounds ih =>
    refine (hbody n m σ h).bind fun _ left m₁ σ₁ hended hm₁ => ?_
    have hleft : left ≤ n := by
      have hbody' := hbody n m σ h
      rw [hended] at hbody'
      exact hbody'.1
    refine (hnext left m₁ σ₁ hm₁).bind fun again left' m₂ σ₂ hended' hm₂ => ?_
    have hlt := lt_of_step_ended hended'
    cases again with
    | false => exact ⟨Nat.le_refl left', m₂, rfl, hm₂⟩
    | true => exact ih (by omega) hm₂

/-- A machine that has come to a block runs like the block and comes to what stands behind it. -/
theorem track_run (hplain : ∀ s ∈ p.lines.flatMap Line.statements, s.stripIfs = s) (b : Block)
    (hb : b.isStructured (loops.map Loop.counter) = true)
    (hroom : loops.length + b.nesting ≤ limit) (hholds : p.Holds k b.statements)
    (h : Following p limit k loops m σ) (n : Nat) :
    Tracks n m (fun _ => Following p limit (k + b.statements.length) loops) (b.run n σ) := by
  induction b generalizing k loops m σ n with
  | done => exact ⟨Nat.le_refl n, m, rfl, h⟩
  | simple s rest ih =>
    obtain ⟨hs, hrest⟩ := Block.isStructured_simple.mp hb
    obtain ⟨pos, hfetch⟩ := hholds.head
    refine (track_simple hplain hs h hfetch n).bind fun _ left m' σ' _ hm' => ?_
    rw [Block.statements, List.length_cons, Nat.add_comm rest.statements.length, ← Nat.add_assoc]
    exact ih hrest hroom hholds.tail hm' left
  | loop counter start stop step body closing rest ihBody ihRest =>
    obtain ⟨hnew, hclosing, hbody, hrest⟩ := Block.isStructured_loop.mp hb
    have hbodyRoom : loops.length + (body.nesting + 1) ≤ limit :=
      (Nat.add_le_add_left (Nat.le_max_left _ _) _).trans hroom
    have hrestRoom : loops.length + rest.nesting ≤ limit :=
      (Nat.add_le_add_left (Nat.le_max_right _ _) _).trans hroom
    obtain ⟨pos, hfetch⟩ := hholds.head
    obtain ⟨hholdsBody, hholdsNext⟩ := hholds.tail.append
    obtain ⟨close, hclose⟩ := hholdsNext.head
    obtain ⟨exit, hexit, hsettle⟩ := Program.loopExit?_block hbody hclosing hfetch hholds.tail
    have hlength : k + (Block.loop counter start stop step body closing rest).statements.length =
        k + 1 + body.statements.length + 1 + rest.statements.length := by
      simp only [Block.statements, List.length_cons, List.length_append]
      omega
    rw [hlength, Block.run]
    have hbehind {m σ : Machine} (left : Nat)
        (hm : Following p limit (k + 1 + body.statements.length + 1) loops m σ) :=
      ihRest hrest hrestRoom hholdsNext.tail hm left
    refine (track_enter hplain h hfetch hexit hsettle hnew (by omega) n).bind
      fun (a, b, s) left m₁ σ₁ _ hm₁ => ?_
    dsimp only at hm₁ ⊢
    by_cases hpasses : Block.passes b s a = true
    · rw [if_pos hpasses] at hm₁ ⊢
      have hround (n : Nat) (m σ : Machine)
          (hm : Following p limit (k + 1) (⟨counter.fold, b, s, pos.next⟩ :: loops) m σ) :=
        ihBody (by exact hbody) (by rw [List.length_cons]; omega) hholdsBody hm n
      have hnext (n : Nat) (m σ : Machine)
          (hm : Following p limit (k + 1 + body.statements.length)
            (⟨counter.fold, b, s, pos.next⟩ :: loops) m σ) :=
        track_advance hplain hm hclose hclosing (Program.settle_next hfetch) n
      exact (track_repeatUpTo hround hnext (Nat.lt_succ_self left) hm₁).bind
        fun _ left' m₂ σ₂ _ hm₂ => hbehind left' hm₂
    · rw [if_neg hpasses] at hm₁ ⊢
      exact hbehind left hm₁

/-- What can be told of a run: whether it is over and, if so, with what kind of error, if any; what
passed through the console; the variables and the arrays. -/
structure Observation where
  outcome : Option (Option ErrorKind)
  events : Array Event
  scalars : Std.HashMap Name Value
  tables : Std.HashMap Name Table

/-- What is seen of a machine, with what is known of the outcome. -/
def observe (m : Machine) (outcome : Option (Option ErrorKind)) : Observation :=
  { outcome, events := m.console.events, scalars := m.memory.scalars, tables := m.memory.tables }

/-- Machines with the same store look the same. -/
theorem SameStore.observe_eq (h : SameStore m σ) (outcome : Option (Option ErrorKind)) :
    m.observe outcome = σ.observe outcome := by
  rw [observe, observe, h.console, h.memory]

/-- What is seen of a run of a program. -/
def Progress.observe : Progress → Observation
  | running m => m.observe none
  | finished (.ok ()) m => m.observe (some none)
  | finished (.error e) m => m.observe (some (some e.kind))

end Machine

/-- What is seen of a run of a block. -/
def Standing.observe : Standing Unit → Machine.Observation
  | running m => m.observe none
  | ended () _ m => m.observe (some none)
  | failed e m => m.observe (some (some e.kind))

namespace Machine

variable {p : Program} {b : Block} {limit k : Nat} {m σ : Machine}

/-- Behind the last statement the program is over. -/
theorem turn_of_following_end (h : Following p limit p.flatten.length [] m σ) :
    ∃ m', m.turn = .finished (.ok ()) m' ∧ SameStore m' σ := by
  have hcursor : p.settle m.cursor = { line := p.lines.length } := by
    rw [h.settled, Program.place, List.getElem?_eq_none (Nat.le_refl _)]
    rfl
  have hat : p.at? { line := p.lines.length } = none := by
    simp [Program.at?]
  refine ⟨m.settle, ?_, { h.store with }⟩
  have hfetch : m.settle.program.at? m.settle.cursor = none := by
    rw [settle, h.program]
    dsimp only
    rw [hcursor, hat]
  unfold turn
  dsimp only
  rw [hfetch]

/-- Before the first turn a machine that has a block's program loaded stands at its first statement,
with the store from which the block starts. -/
theorem following_load (hlayout : p.lines.flatMap Line.statements = b.statements)
    (hsteps : m.stepLimit = none) :
    Following p m.loops.limit 0 [] (m.load p) (b.start m) where
  store :=
    { console := rfl
      memory := rfl
      functions := rfl
      random := rfl
      depth := rfl
      returnsLimit := rfl
      items := by
        change p.dataItems.toArray = b.dataItems.toArray
        rw [Program.dataItems, Block.dataItems, ← hlayout, List.flatMap_assoc]
        rfl
      next := rfl
      interrupted := rfl }
  program := rfl
  settled := Program.settle_start p
  items := rfl
  limit := rfl
  flow := rfl
  stepLimit := hsteps

/-- A program that consists of the statements of a block, on whatever lines they stand, runs like the
block: after any number of turns the same has been seen of both. -/
theorem execute_block (b : Block) (p : Program) (m : Machine) (turns : Nat)
    (hb : b.isStructured [] = true)
    (hlayout : p.lines.flatMap Line.statements = b.statements)
    (hnesting : b.nesting ≤ m.loops.limit) (hsteps : m.stepLimit = none) :
    (m.execute p turns).observe = (b.execute m turns).observe := by
  have hplain : ∀ s ∈ p.lines.flatMap Line.statements, s.stripIfs = s := fun s hs =>
    Block.stripIfs_of_mem hb (hlayout ▸ hs)
  have hlength : 0 + b.statements.length = p.flatten.length := by
    rw [Nat.zero_add, ← hlayout, ← List.length_map Statement.stripIfs, ← Program.flatten_map_snd,
      List.length_map]
  have hroom : ([] : List Loop).length + b.nesting ≤ m.loops.limit := by
    rw [List.length_nil, Nat.zero_add]
    exact hnesting
  have htracks := track_run hplain b (by exact hb) hroom (Program.holds_of_layout hb hlayout)
    (following_load hlayout hsteps) turns
  rw [hlength] at htracks
  unfold execute Block.execute
  change _ = (Timed.bind b.run (fun _ => Timed.tick) turns (b.start m)).observe
  unfold Timed.bind
  cases hrun : b.run turns (b.start m) with
  | running σ =>
    rw [hrun] at htracks
    obtain ⟨m', heq, hstore⟩ := htracks
    rw [heq]
    exact hstore.observe_eq none
  | failed e σ =>
    rw [hrun] at htracks
    obtain ⟨line, m', heq, hstore⟩ := htracks
    rw [heq, Progress.observe, Error.inLine_kind]
    exact hstore.observe_eq _
  | ended a left σ =>
    rw [hrun] at htracks
    obtain ⟨-, m', heq, hfollowing⟩ := htracks
    rw [heq]
    cases left with
    | zero => exact hfollowing.store.observe_eq none
    | succ left =>
      obtain ⟨m'', hturn, hstore⟩ := turn_of_following_end hfollowing
      rw [runFor, hturn]
      exact hstore.observe_eq _

/-- Two loops that end together in front of another statement; the inner one is not entered, and the
outer one does not name its counter again. -/
def skippedInnerLoop : Block :=
  .loop "I" (.literal (.number 1)) (.literal (.number 2)) none
    (.loop "J" (.literal (.number 3)) (.scalar "I") none
      (.simple (.print [.scalar "J"] true) .done) (some "J") .done)
    none (.simple (.assign (.scalar "K") (.scalar "I")) .done)

/-- The statements of `skippedInnerLoop` on lines that cut through both loops. -/
def skippedInnerLoopLines : Program where
  lines := [
    { number := 10
      statements := [
        .loop "I" (.literal (.number 1)) (.literal (.number 2)) none,
        .loop "J" (.literal (.number 3)) (.scalar "I") none] },
    { number := 20, statements := [] },
    { number := 30
      statements := [.print [.scalar "J"] true, .next (some "J"), .next none,
        .assign (.scalar "K") (.scalar "I")] }]

/-- The inner loop is skipped, and both ways of running the lines look the same. -/
theorem execute_block_skippedInnerLoop :
    skippedInnerLoop.isStructured [] = true ∧
    skippedInnerLoopLines.lines.flatMap Line.statements = skippedInnerLoop.statements ∧
    (∀ turns, ((Machine.new {} 0 2).execute skippedInnerLoopLines turns).observe =
      (skippedInnerLoop.execute (Machine.new {} 0 2) turns).observe) := by
  have hb : skippedInnerLoop.isStructured [] = true := by decide +kernel
  exact ⟨hb, rfl, fun turns => execute_block skippedInnerLoop skippedInnerLoopLines
    (Machine.new {} 0 2) turns hb rfl (by decide) rfl⟩

end Machine

end CommodoreBasic
