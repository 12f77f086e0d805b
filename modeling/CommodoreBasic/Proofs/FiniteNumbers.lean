import CommodoreBasic.Proofs.ArrayStorage
import CommodoreBasic.Proofs.FiniteValues
import CommodoreBasic.Proofs.LoopStack

/-!
# Numbers stay finite

A machine holds numbers in its variables and arrays, in the DATA pool, in the limits and steps of its loops
and in the random generator. If all of them are finite and the machine runs a program that keeps numbers
finite, every request of the program is answered with a finite value and leaves them finite. So does every
statement, and so does every run. A new machine is such a one if its clock and its generator are.

A program that calls VAL need not keep them finite: the last program here stores an infinite number.
-/

namespace CommodoreBasic

open CommodoreBasic.Action CommodoreBasic.Number

/-! ## Memory -/

/-- All that the clock ever shows is a number without rounding. -/
structure Clock.IsExact (c : Clock) : Prop where
  now : c.now.ticks < 2 ^ 53
  later : ∀ k, (c.later k).ticks < 2 ^ 53

/-- A clock that is exact stays so. -/
theorem Clock.IsExact.advance {c : Clock} (h : c.IsExact) : c.advance.IsExact :=
  ⟨h.later 0, fun k => h.later (k + 1)⟩

/-- A clock that stands still at the beginning is such a one. -/
theorem Clock.isExact_empty : Clock.IsExact {} :=
  ⟨Nat.two_pow_pos 53, fun _ => Nat.two_pow_pos 53⟩

namespace Memory

variable {m m' : Memory}

/-- All numbers in memory are finite, those of the clock among them. -/
structure AllFinite (m : Memory) : Prop where
  clock : m.clock.IsExact
  scalars : ∀ (key : Name) (v : Value), m.scalars[key]? = some v → v.isFinite = true
  tables : ∀ (key : Name) (t : Table), m.tables[key]? = some t → ∀ v ∈ t.cells, v.isFinite = true

namespace AllFinite

/-- What is fetched from finite values is finite. -/
theorem fetch (h : m.AllFinite) (n : Name) : (m.fetch n).isFinite = true := by
  rw [Memory.fetch]
  split
  · exact Value.isFinite_number (isFinite_ofNat h.clock.now)
  · split
    · rfl
    · cases hstored : m.scalars[n.fold]? with
      | none =>
        rw [Option.getD_none]
        exact Value.isFinite_zeroFor n.fold
      | some v => exact h.scalars n.fold v hstored

/-- The clock holds no number. -/
theorem advanceClock (h : m.AllFinite) : m.advanceClock.AllFinite :=
  { h with clock := h.clock.advance }

/-- A cleared memory has no values. -/
theorem clear (h : m.AllFinite) : m.clear.AllFinite where
  clock := h.clock
  scalars key v hv := by simp [Memory.clear] at hv
  tables key t ht := by simp [Memory.clear] at ht

/-- New arrays are full of zeros and empty texts. -/
theorem supplied (h : m.AllFinite) {key : Name} (hsupplied : Supplied key m m') : m'.AllFinite where
  clock := by cases hsupplied <;> exact h.clock
  scalars := by cases hsupplied <;> exact h.scalars
  tables k t ht := by
    obtain ht | ⟨-, bounds, rfl⟩ := getElem?_supplied hsupplied ht
    · exact h.tables k t ht
    · intro v hv
      rw [Table.zeros, Array.mem_replicate] at hv
      rw [hv.2]
      exact Value.isFinite_zeroFor k

/-- A finite value may be put into a cell. -/
theorem put (h : m.AllFinite) (key : Name) (p : Nat) {v : Value} (hv : v.isFinite = true) :
    (m.put key p v).AllFinite where
  clock := h.clock
  scalars := h.scalars
  tables k t ht := by
    rw [getElem?_put] at ht
    split at ht
    · obtain ⟨t', ht', rfl⟩ := Option.map_eq_some_iff.mp ht
      intro w hw
      rcases Array.mem_or_eq_of_mem_setIfInBounds hw with hw | rfl
      · exact h.tables k t' ht' w hw
      · exact hv
    · exact h.tables k t ht

end AllFinite

/-- A finite value may be stored in a variable. -/
theorem store_yields (n : Name) {v : Value} (hv : v.isFinite = true) :
    Yields AllFinite (fun _ => True) (store n v) := by
  intro m hm
  obtain ⟨e, hstore⟩ | ⟨-, -, -, hstore⟩ := store_cases n v m <;> rw [hstore]
  · exact ⟨trivial, hm⟩
  · refine ⟨trivial, hm.clock, fun key w hw => ?_, hm.tables⟩
    rw [Std.HashMap.getElem?_insert] at hw
    split at hw
    · cases hw
      exact hv
    · exact hm.scalars key w hw

/-- DIM stores no value. -/
theorem dimension_yields (n : Name) (sizes : List Value) :
    Yields AllFinite (fun _ => True) (dimension n sizes) := by
  intro m hm
  refine ⟨?_, hm.supplied (supplied_dimension n sizes m)⟩
  cases (dimension n sizes m).1 <;> trivial

/-- Neither does finding the place of an element. -/
theorem locate_yields (key : Name) (subscripts : List Value) :
    Yields AllFinite (fun _ => True) (locate key subscripts) := by
  intro m hm
  refine ⟨?_, hm.supplied (supplied_locate key subscripts m)⟩
  cases (locate key subscripts m).1 <;> trivial

/-- An element that is fetched is finite. -/
theorem fetchElement_yields (n : Name) (subscripts : List Value) :
    Yields AllFinite (·.isFinite = true) (fetchElement n subscripts) := by
  refine (locate_yields n.fold subscripts).bind fun p _ => ?_
  intro m hm
  dsimp only
  split
  · next v hv =>
    obtain ⟨t, ht, hcell⟩ := Option.bind_eq_some_iff.mp hv
    exact ⟨hm.tables n.fold t ht v (Array.mem_of_getElem? hcell), hm⟩
  · exact ⟨trivial, hm⟩

/-- A finite value may be stored in an element. -/
theorem storeElement_yields (n : Name) (subscripts : List Value) {v : Value}
    (hv : v.isFinite = true) : Yields AllFinite (fun _ => True) (storeElement n subscripts v) := by
  cases hfits : v.fits n.fold with
  | false =>
    intro m hm
    unfold storeElement
    rw [hfits]
    exact ⟨trivial, hm⟩
  | true =>
    rw [storeElement_eq hfits]
    refine (locate_yields n.fold subscripts).bind fun p _ => ?_
    intro m hm
    unfold putAt
    split
    · split
      · exact ⟨trivial, hm.put n.fold p hv⟩
      · exact ⟨trivial, hm⟩
    · exact ⟨trivial, hm⟩

end Memory

/-- DATA items are constants of their statement. -/
theorem Statement.mem_nodes_of_dataItems {s : Statement} {v : Value} (hv : v ∈ s.dataItems) :
    .expression (.literal v) ∈ s.nodes := by
  induction s with
  | data items => exact List.mem_append_left _ (List.mem_map.mpr ⟨v, hv, rfl⟩)
  | ifThen condition s ih => exact List.mem_append_left _ (List.mem_append_right _ (ih hv))
  | _ => cases hv

/-- The items of DATA are constants of the program. -/
theorem Program.KeepsFinite.dataItems {p : Program} (hp : p.KeepsFinite) :
    ∀ v ∈ p.dataItems, v.isFinite = true := by
  intro v hv
  obtain ⟨line, hline, hv⟩ := List.mem_flatMap.mp hv
  obtain ⟨s, hs, hv⟩ := List.mem_flatMap.mp hv
  exact hp.constants v ⟨line, hline, s, hs, Statement.mem_nodes_of_dataItems hv⟩

/-! ## Records -/

/-- A request of the program with finite values, and with a finite answer if it did not fail. -/
structure Entry.IsFinite (p : Program) (entry : Entry) : Prop where
  request : entry.request.Safe p
  result : IfOk entry.answer.IsFinite entry.result

/-- Recording changes nothing, so all that is recorded is finite. -/
theorem Handler.Yields.recording {σ : Type} {P : σ → Prop} {p : Program} {h : Handler σ}
    (hask : Handler.Yields p P h) :
    Handler.Yields p (fun s => P s.1 ∧ ∀ entry ∈ s.2, entry.IsFinite p) h.recording := by
  intro a r hr s hs
  obtain ⟨hresult, hstate⟩ := hask a r hr s.1 hs.1
  refine ⟨hresult, hstate, fun entry hentry => ?_⟩
  rcases Array.mem_push.mp hentry with hentry | rfl
  · exact hs.2 entry hentry
  · exact ⟨hr, hresult⟩

/-! ## Machines -/

namespace Machine

variable {m : Machine} {p : Program} {α : Type}

/-- All numbers that the machine holds are finite, and it runs the program `p`, from which its functions
come. -/
structure AllFinite (p : Program) (m : Machine) : Prop where
  memory : m.memory.AllFinite
  data : ∀ v ∈ m.data.items, v.isFinite = true
  loops : ∀ l ∈ m.loops.items, l.limit.isFinite = true ∧ l.step.isFinite = true
  random : m.random.last.isFinite = true
  functions : ∀ (f : String) (g : UserFunction), m.functions[f]? = some g → p.Contains g.body
  program : m.program = p

/-- A new machine with a program to run. -/
theorem AllFinite.load_new (hp : p.KeepsFinite) (console : Console) (stepLimit stackLimit : Nat)
    {random : Random} (hrandom : random.last.isFinite = true) {clock : Clock} (hclock : clock.IsExact) :
    AllFinite p ((new console stepLimit stackLimit random clock).load p) where
  memory := ⟨hclock, fun key v hv => by simp [new, load] at hv, fun key t ht => by simp [new, load] at ht⟩
  data v hv := hp.dataItems v (List.mem_toArray.mp hv)
  loops := List.forall_mem_nil _
  random := hrandom
  functions f g hg := by simp [new, load] at hg
  program := rfl

/-- Only the named parts of a machine matter. -/
theorem onMemory_yields {Q : α → Prop} {act : Action Memory α} (hact : Yields Memory.AllFinite Q act) :
    Yields (AllFinite p) Q (onMemory act) := by
  intro m hm
  obtain ⟨hresult, hmemory⟩ := hact m.memory hm.memory
  rw [onMemory_apply]
  exact ⟨hresult, { hm with memory := hmemory }⟩

/-- Nothing that the console does is noticed. -/
theorem onConsole_yields (act : Action Console α) :
    Yields (AllFinite p) (fun _ => True) (onConsole act) := by
  intro m hm
  refine ⟨?_, hm.memory, hm.data, hm.loops, hm.random, hm.functions, hm.program⟩
  cases (onConsole act m).1 <;> trivial

/-- A jump moves the cursor only. -/
theorem AllFinite.jumpTo (hm : m.AllFinite p) (pos : Position) : (m.jumpTo pos).AllFinite p :=
  ⟨hm.memory, hm.data, hm.loops, hm.random, hm.functions, hm.program⟩

/-- Loops may be left, but none is made up. -/
theorem AllFinite.setLoops (hm : m.AllFinite p) {items : List Loop} (h : items.Sublist m.loops.items) :
    AllFinite p { m with loops := { m.loops with items } } :=
  { hm with loops := fun l hl => hm.loops l (h.subset hl) }

/-- A cleared machine has no values left. -/
theorem AllFinite.clear (hm : m.AllFinite p) : m.clear.AllFinite p where
  memory := hm.memory.clear
  data := hm.data
  loops := List.forall_mem_nil _
  random := hm.random
  functions f g hg := by simp [Machine.clear] at hg
  program := hm.program

/-- READ gives a constant of the program. -/
theorem readData_yields : Yields (AllFinite p) (·.isFinite = true) readData := by
  intro m hm
  rw [readData]
  cases hread : m.data.read? with
  | none => exact ⟨trivial, hm⟩
  | some r =>
    obtain ⟨v, hv, rfl⟩ := Option.map_eq_some_iff.mp hread
    exact ⟨hm.data v (Array.mem_of_getElem? hv), { hm with }⟩

/-- RESTORE moves to another item. -/
theorem restoreData_yields (line : Option LineNumber) :
    Yields (AllFinite p) (fun _ => True) (restoreData line) := by
  refine .modify (fun m hm => ?_) trivial
  cases line <;> exact { hm with }

/-- The search for a line changes nothing. -/
theorem findLine_yields (n : LineNumber) : Yields (AllFinite p) (fun _ => True) (findLine n) := by
  intro m hm
  rw [findLine]
  split <;> exact ⟨trivial, hm⟩

/-- GOSUB remembers a position. -/
theorem enterSubroutine_yields (i : Nat) :
    Yields (AllFinite p) (fun _ => True) (enterSubroutine i) := by
  intro m hm
  rw [enterSubroutine]
  split
  · exact ⟨trivial, { hm with }⟩
  · exact ⟨trivial, hm⟩

/-- RETURN goes back to one. -/
theorem comeBack_yields : Yields (AllFinite p) (fun _ => True) comeBack := by
  intro m hm
  rw [comeBack]
  split
  · exact ⟨trivial, { hm with }⟩
  · exact ⟨trivial, hm⟩

/-- END moves the cursor only. -/
theorem finish_yields : Yields (AllFinite p) (fun _ => True) finish :=
  .modify (fun _ hm => { hm with }) trivial

/-- RUN clears the machine and finds a line. -/
theorem run_yields (line : Option LineNumber) : Yields (AllFinite p) (fun _ => True) (run line) := by
  have hrest (i : Nat) : Yields (AllFinite p) (fun _ => True)
      (modify fun m => m.clear.jumpToLine i) := .modify (fun m hm => hm.clear.jumpTo _) trivial
  cases line with
  | none => exact hrest 0
  | some n => exact (findLine_yields n).bind fun i _ => hrest i

/-- FOR remembers finite limits and steps. -/
theorem enterLoop_yields (counter : Name) {start limit step : Float} (hlimit : limit.isFinite = true)
    (hstep : step.isFinite = true) :
    Yields (AllFinite p) (fun _ => True) (enterLoop counter start limit step) := by
  intro m hm
  rw [enterLoop]
  dsimp only
  split
  · split
    · next loops hpush =>
      refine ⟨trivial, { hm with loops := ?_ }⟩
      rw [Stack.items_of_push hpush]
      exact List.forall_mem_cons.mpr ⟨⟨hlimit, hstep⟩, hm.loops⟩
    · exact ⟨trivial, hm⟩
  · split
    · exact ⟨trivial, hm.jumpTo _⟩
    · exact ⟨trivial, hm⟩

/-- FOR stores a finite counter. -/
theorem beginLoop_yields (counter : Name) {start limit step : Float} (hstart : start.isFinite = true)
    (hlimit : limit.isFinite = true) (hstep : step.isFinite = true) :
    Yields (AllFinite p) (fun _ => True) (beginLoop counter start limit step) := by
  rw [beginLoop]
  dsimp only
  split
  · exact fun m hm => ⟨trivial, hm⟩
  · refine Yields.bind (Q := fun _ => True) (.modify (fun m hm => ?_) trivial) fun _ _ => ?_
    · rw [leaveLoop_eq]
      exact hm.setLoops (Loop.around_sublist _ _)
    · refine (onMemory_yields (Memory.store_yields _ (Value.isFinite_number hstart))).bind fun _ _ => ?_
      exact enterLoop_yields _ hlimit hstep

/-- The sum that NEXT stores has not passed the limit. -/
theorem stepLoop_yields {l : Loop} (hlimit : l.limit.isFinite = true) (hstep : l.step.isFinite = true) :
    Yields (AllFinite p) (fun _ => True) (stepLoop l) := by
  intro m hm
  have hcounter := hm.memory.fetch l.counter
  rw [stepLoop]
  split
  · exact ⟨trivial, hm⟩
  · next x hx =>
    rw [hx] at hcounter
    dsimp only
    split
    · next hcontinues =>
      have hsum := l.isFinite_of_continues hlimit hstep hcounter hcontinues
      have hstore : Yields (AllFinite p) (fun _ => True) (do
          onMemory (Memory.store l.counter (.number (x + l.step)))
          modify (·.jumpTo l.resume)) :=
        (onMemory_yields (Memory.store_yields l.counter (Value.isFinite_number hsum))).bind fun _ _ =>
          .modify (fun m hm => hm.jumpTo l.resume) trivial
      exact hstore m hm
    · exact ⟨trivial, hm.setLoops (List.drop_sublist _ _)⟩

/-- NEXT adds finite numbers, and an overflow is an error. -/
theorem nextLoop_yields (counter : Option Name) :
    Yields (AllFinite p) (fun _ => True) (nextLoop counter) := by
  intro m hm
  rw [nextLoop_eq]
  have hsublist := Loop.steppedBy_sublist counter m.loops.items
  cases hloops : Loop.steppedBy counter m.loops.items with
  | nil => exact ⟨trivial, hm⟩
  | cons l outer =>
    rw [hloops] at hsublist
    obtain ⟨hlimit, hstep⟩ := hm.loops l (hsublist.subset List.mem_cons_self)
    exact stepLoop_yields hlimit hstep _ (hm.setLoops hsublist)

/-- DEF remembers a body from the program. -/
theorem define_yields (function : String) (parameter : Name) {body : Expr} (hbody : p.Contains body) :
    Yields (AllFinite p) (fun _ => True) (define function parameter body) := by
  refine .modify (fun m hm => { hm with functions := fun f g hg => ?_ }) trivial
  rw [Std.HashMap.getElem?_insert] at hg
  split at hg
  · cases hg
    exact hbody
  · exact hm.functions f g hg

/-- A built-in function that keeps numbers finite gives a finite value. -/
theorem builtin_yields {f : Builtin} (hf : f.KeepsFinite) {arguments : List Value}
    (harguments : ∀ v ∈ arguments, v.isFinite = true) :
    Yields (AllFinite p) (·.isFinite = true) (onRandom (f.apply arguments)) := by
  intro m hm
  obtain ⟨hresult, hrandom⟩ := hf.apply harguments hm.random
  rw [onRandom_apply]
  exact ⟨hresult, { hm with random := hrandom }⟩

/-- Requests are answered with finite values if calls of user functions are. -/
theorem answer_yields (hp : p.KeepsFinite) {call : String → List Value → Action Machine Value}
    (hcall : ∀ f arguments, (∀ v ∈ arguments, v.isFinite = true) →
      Yields (AllFinite p) (·.isFinite = true) (call f arguments)) :
    Handler.Yields p (AllFinite p) (answer call) := by
  intro a r hr
  cases r with
  | fetch n => exact fun m hm => ⟨hm.memory.fetch n, hm⟩
  | store n v =>
    have hstored := Memory.store_yields n (hr.values v List.mem_cons_self)
    rw [answer]
    exact onMemory_yields hstored
  | dimension n sizes => exact onMemory_yields (Memory.dimension_yields n sizes)
  | fetchElement n subscripts => exact onMemory_yields (Memory.fetchElement_yields n subscripts)
  | storeElement n subscripts v =>
    exact onMemory_yields (Memory.storeElement_yields n subscripts (hr.values v List.mem_cons_self))
  | read => exact readData_yields
  | restore line => exact restoreData_yields line
  | print s => exact onConsole_yields _
  | printLine s => exact onConsole_yields _
  | ask prompt => exact onConsole_yields _
  | clearScreen => exact onConsole_yields _
  | jump j n =>
    cases j with
    | goto =>
      exact (findLine_yields n).bind fun i _ => .modify (fun m hm => hm.jumpTo _) trivial
    | gosub => exact (findLine_yields n).bind fun i _ => enterSubroutine_yields i
  | comeBack => exact comeBack_yields
  | finish => exact finish_yields
  | stop =>
    refine Yields.bind (Q := fun _ => True) (fun m hm => ?_) fun _ _ => finish_yields
    exact onConsole_yields (Console.printLine m.stopMessage) m hm
  | run line => exact run_yields line
  | skipLine => exact .modify (fun m hm => hm.jumpTo _) trivial
  | beginLoop counter start limit step =>
    obtain ⟨hstart, hlimit, hstep⟩ : start.isFinite = true ∧ limit.isFinite = true ∧
        step.isFinite = true := by simpa [Request.values, Value.isFinite] using hr.values
    exact beginLoop_yields counter hstart hlimit hstep
  | nextLoop counter => exact nextLoop_yields counter
  | define f parameter body => exact define_yields f parameter hr.isOf
  | call c arguments =>
    cases c with
    | builtin f => exact builtin_yields (hp.builtins f hr.isOf) hr.values
    | user f => exact hcall f arguments hr.values

/-- A function that is found comes from the program, and its argument is one of those given. -/
theorem resolveCall_yields (f : String) {arguments : List Value}
    (harguments : ∀ v ∈ arguments, v.isFinite = true) :
    Yields (AllFinite p) (fun call => p.Contains call.1.body ∧ call.2.isFinite = true)
      (resolveCall f arguments) := by
  intro m hm
  unfold resolveCall
  split
  · exact ⟨trivial, hm⟩
  · next g v hg =>
    split
    · exact ⟨⟨hm.functions f g hg, harguments v List.mem_cons_self⟩, hm⟩
    · exact ⟨trivial, hm⟩
  · exact ⟨trivial, hm⟩

/-- A parameter has a finite value, and the variable gets its own back. -/
theorem withVariable_yields {Q : α → Prop} (n : Name) {v : Value} (hv : v.isFinite = true)
    {x : Action Machine α} (hx : Yields (AllFinite p) Q x) :
    Yields (AllFinite p) Q (withVariable n v x) := by
  intro m hm
  have hsaved := hm.memory.fetch n
  have hset := (onMemory_yields (p := p) (Memory.store_yields n hv) m hm).2
  unfold withVariable
  rcases hstore : onMemory (Memory.store n v) m with ⟨_ | ⟨⟨⟩⟩, m'⟩ <;> rw [hstore] at hset
  · exact ⟨trivial, hset⟩
  · obtain ⟨hresult, hstate⟩ := hx m' hset
    have hback := (onMemory_yields (p := p) (Memory.store_yields n hsaved) (x m').2 hstate).2
    dsimp only
    rcases hrestore : onMemory (Memory.store n (m.memory.fetch n)) (x m').2 with ⟨_ | ⟨⟨⟩⟩, m''⟩ <;>
      rw [hrestore] at hback
    · exact ⟨trivial, hback⟩
    · exact ⟨hresult, hback⟩

/-- A nested call gives what the action gives. -/
theorem nested_yields {Q : α → Prop} {x : Action Machine α} (hx : Yields (AllFinite p) Q x) :
    Yields (AllFinite p) Q (nested x) := by
  intro m hm
  obtain ⟨hresult, hstate⟩ := hx { m with depth := m.depth + 1 } { hm with }
  exact ⟨hresult, hstate.memory, hstate.data, hstate.loops, hstate.random, hstate.functions,
    hstate.program⟩

/-- Calls of user functions have finite values, however they are nested. -/
theorem callUser_yields (hp : p.KeepsFinite) (room : Nat) (f : String) {arguments : List Value}
    (harguments : ∀ v ∈ arguments, v.isFinite = true) :
    Yields (AllFinite p) (·.isFinite = true) (callUser room f arguments) := by
  induction room generalizing f arguments with
  | zero => exact (resolveCall_yields f harguments).bind fun _ _ => .throw _
  | succ room ih =>
    refine (resolveCall_yields f harguments).bind fun call hcall => ?_
    have hask : Handler.Yields p (AllFinite p) (answer (callUser room)) :=
      answer_yields hp fun f arguments => ih f
    exact withVariable_yields _ hcall.2 (nested_yields (Expr.eval_yields hp hask hcall.1))

/-- Every request is answered with finite values. -/
theorem perform_yields (hp : p.KeepsFinite) : Handler.Yields p (AllFinite p) perform := by
  intro a r hr m hm
  have hcall (f : String) (arguments : List Value) (harguments : ∀ v ∈ arguments, v.isFinite = true) :=
    callUser_yields hp (m.returns.limit - m.depth) f harguments
  exact answer_yields hp hcall a r hr m hm

/-! ## Runs -/

/-- Every turn keeps all values finite. -/
theorem keptByTurns_allFinite (hp : p.KeepsFinite) : KeptByTurns (AllFinite p) where
  settle hm := { hm with }
  beginStep {m} hm := by
    unfold beginStep
    split
    · exact { hm with }
    · dsimp only
      split
      · exact { hm with }
      · exact { hm with memory := hm.memory.advanceClock }
  exec {m pos line s} hm hat patience := by
    rw [hm.program] at hat
    have hs (e : Expr) (he : .expression e ∈ s.nodes) : p.Contains e := .of_at? hat he
    exact (Statement.exec_yields hp (perform_yields hp) hs patience m hm).2
  proceed {m} hm := by
    unfold proceed
    cases m.flow <;> exact { hm with }

/-- What the world outside may do between two turns. -/
theorem AllFinite.exchange (hm : m.AllFinite p) (console : Console) {clock : Clock}
    (hclock : clock.IsExact) (interrupted : Bool) :
    AllFinite p { m with console, interrupted, memory := { m.memory with clock } } :=
  { hm with memory := { hm.memory with clock := hclock } }

/-- A program that does not call VAL never meets a number that is not finite. In every run from a new
machine, of any length and with any input, the numbers in variables, arrays, DATA and loops are finite,
whatever the clock shows and the generator begins with. Wherever they are, each expression of the program
has a finite value or fails, however deep in calls of user functions, and each statement makes its
requests with finite values, gets finite answers and leaves finite numbers behind, also if it fails; so
does every run from there on, and the world outside between two turns. Arithmetic with a result that is
not finite is an overflow. -/
theorem execute_allFinite {source : String} (hparse : Program.parse source = .ok p)
    (hval : ¬ p.Calls .val) (helementary : Builtin.Elementary p.Calls) :
    (∀ console stepLimit stackLimit random clock turns, random.last.isFinite = true → clock.IsExact →
      ((new console stepLimit stackLimit random clock).execute p turns).machine.AllFinite p) ∧
    (∀ m : Machine, m.AllFinite p →
      (∀ turns, (m.runFor turns).machine.AllFinite p) ∧
      (∀ e room, p.Contains e →
        IfOk (·.isFinite = true) (e.eval (answer (callUser room)) m).1 ∧
          (e.eval (answer (callUser room)) m).2.AllFinite p) ∧
      (∀ pos line s patience, p.at? pos = some (line, s) →
        (s.exec perform.recording patience (m, #[])).2.1.AllFinite p ∧
          ∀ entry ∈ (s.exec perform.recording patience (m, #[])).2.2, entry.IsFinite p) ∧
      ∀ console clock interrupted, clock.IsExact →
        AllFinite p { m with console, interrupted, memory := { m.memory with clock } }) ∧
    ∀ x y, BinaryOp.Overflows x y := by
  have hp := Program.keepsFinite hparse hval helementary
  refine ⟨fun console stepLimit stackLimit random clock turns hrandom hclock => ?_,
    fun m hm => ⟨fun turns => (keptByTurns_allFinite hp).runFor hm turns, fun e room he => ?_,
      fun pos line s patience hat => ?_, fun console clock interrupted hclock => ?_⟩,
    BinaryOp.overflows⟩
  · have hload := AllFinite.load_new hp console stepLimit stackLimit hrandom hclock
    exact (keptByTurns_allFinite hp).runFor hload turns
  · have hask : Handler.Yields p (AllFinite p) (answer (callUser room)) :=
      answer_yields hp fun f arguments => callUser_yields hp room f
    exact Expr.eval_yields hp hask he m hm
  · have hs (e : Expr) (he : .expression e ∈ s.nodes) : p.Contains e := .of_at? hat he
    have hempty (entry : Entry) (h : entry ∈ (#[] : Array Entry)) : entry.IsFinite p :=
      absurd h (Array.not_mem_empty entry)
    exact (Statement.exec_yields hp (perform_yields hp).recording hs patience (m, #[])
      ⟨hm, hempty⟩).2
  · exact hm.exchange console hclock interrupted

/-- A loop towards a limit that is asked for, with steps that lead beyond all numbers. -/
def hugeSteps : String := "10 INPUT L\n20 FOR I=1 TO L STEP 1E308:A(1)=I*RND(1):NEXT"

/-- A program with a huge step keeps its values finite by failing. -/
theorem execute_allFinite_hugeSteps :
    ∃ p, Program.parse hugeSteps = .ok p ∧ ¬ p.Calls .val ∧ Builtin.Elementary p.Calls ∧
      ∀ replies turns, ((new { replies } 0 10).execute p turns).machine.AllFinite p := by
  have hread : (Program.parse hugeSteps).toOption.any (fun p =>
      decide (∀ f ∈ [Builtin.val, .atn, .cos, .log, .sin], ¬ p.Calls f)) = true := by decide +kernel
  cases hparse : Program.parse hugeSteps with
  | error e =>
    rw [hparse] at hread
    cases hread
  | ok p =>
    rw [hparse] at hread
    obtain ⟨hval, hcalls⟩ := List.forall_mem_cons.mp (of_decide_eq_true hread)
    have helementary := Builtin.Elementary.of_not_called hcalls
    refine ⟨p, rfl, hval, helementary, fun replies turns => ?_⟩
    have hrandom : (default : Random).last.isFinite = true := isFinite_ofNat (Nat.two_pow_pos 53)
    exact (execute_allFinite hparse hval helementary).1 { replies } 0 10 default {} turns hrandom
      Clock.isExact_empty

/-- The statement `X=VAL("1E400")`. -/
def readHuge : Statement := .assign (.scalar "X") (.call (.builtin .val) [.literal (.text "1E400")])

/-- A program that has a numeral read which is beyond all numbers. -/
def hugeNumeral : Program where
  lines := [{ number := 10, statements := [readHuge] }]

/-- The program is read as it is meant. -/
theorem parse_hugeNumeral : Program.parse "10 X=VAL(\"1E400\")" = .ok hugeNumeral := by
  have hlines : (Program.splitLines "10 X=VAL(\"1E400\")".toList).filter (! ·.all Text.isWhiteSpace) =
      ["10 X=VAL(\"1E400\")".toList] := by decide +kernel
  have hnumber : (Token.scanLine "10 X=VAL(\"1E400\")".toList).number = some 10 := by decide +kernel
  have htokens : (Token.scanLine "10 X=VAL(\"1E400\")".toList).tokens =
      [.name "X", .operator .equal, .builtin .val, .leftParenthesis, .quoted "1E400",
        .rightParenthesis] := by decide +kernel
  have hstatements : Statement.parseAll [.name "X", .operator .equal, .builtin .val, .leftParenthesis,
      .quoted "1E400", .rightParenthesis] = .ok [readHuge] := rfl
  have hline := Line.parse_of_parseAll hnumber htokens hstatements
  unfold Program.parse
  rw [hlines]
  dsimp only
  rw [List.mapM_cons, List.mapM_nil, String.ofList_toList, hline]
  rfl

/-- VAL gives infinity, and it is stored. -/
theorem exec_readHuge (hm : m.memory = {}) (patience : Nat) :
    readHuge.exec perform patience m =
      (.ok (), { m with memory.scalars := Std.HashMap.insert {} "X" (.number (1 / 0)) }) := by
  have hval : Builtin.val.evaluate [.text "1E400"] = .ok (.number (1 / 0)) := by decide +kernel
  have heval : (Expr.call (.builtin .val) [.literal (.text "1E400")]).eval perform m =
      (Builtin.val.evaluate [.text "1E400"], m) := rfl
  rw [hval] at heval
  have hstore : Memory.store "X" (.number (1 / 0)) {} =
      (.ok (), { scalars := Std.HashMap.insert {} "X" (.number (1 / 0)) }) :=
    Memory.store_of_room (n := "X") rfl rfl (by decide)
  refine (bind_of_ok heval).trans ?_
  change onMemory (Memory.store "X" (.number (1 / 0))) m = _
  rw [onMemory_apply, hm, hstore]

/-- A program that calls VAL may end with a variable that is not finite, and without an error. -/
theorem execute_hugeNumeral :
    Program.parse "10 X=VAL(\"1E400\")" = .ok hugeNumeral ∧
      ((new {} 0 10).execute hugeNumeral 2).result? = some (.ok ()) ∧
      ((new {} 0 10).execute hugeNumeral 2).machine.memory.fetch "X" = .number (1 / 0) ∧
      (1 / 0 : Float).isFinite = false := by
  have hturn := (turn_of_fetch? (m := (new {} 0 10).load hugeNumeral) rfl rfl).1
  rw [exec_readHuge rfl] at hturn
  refine ⟨parse_hugeNumeral, ?_, ?_, by decide⟩ <;> rw [execute, runFor, hturn]
  · rfl
  · exact Memory.fetch_insert (m := {}) (n := "X") rfl "X"

end Machine

end CommodoreBasic
