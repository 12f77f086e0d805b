import CommodoreBasic.Machine.Run
import CommodoreBasic.Proofs.Coupling
import CommodoreBasic.Proofs.LoopStack

/-!
# Machines in lockstep

Two machines go in lockstep if they differ only in what no statement can notice: how variables are
spelled in the program and in user functions, how memory and functions are represented, and how many
statements have been counted and may be. A likeness says which differences of the first three kinds
are meant.

Evaluation and simple statements keep machines in lockstep because these are coupled; what is left
are the requests that concern the control flow, and the searches in the text of the program on which
they rest. So all statements are carried out alike, and only the count, which is looked at between
two statements, can part the machines.
-/

namespace CommodoreBasic

open CommodoreBasic.Action

/-- Differences between two machines: the spelling of variables in the second machine's program, and
relations between memories and between the functions defined. -/
structure Likeness where
  rename : Name → Name
  memory : Memory → Memory → Prop
  functions : Std.HashMap String UserFunction → Std.HashMap String UserFunction → Prop

/-- The differences cannot be noticed, and what a program does keeps them so. -/
structure Likeness.Lawful (L : Likeness) : Prop where
  respelling : Name.Respelling L.rename
  congruence : Memory.Congruence L.memory
  lookup {fs gs : Std.HashMap String UserFunction} : L.functions fs gs → ∀ f : String,
    Option.Rel UserFunction.Respelled fs[f]? gs[f]?
  define {fs gs : Std.HashMap String UserFunction} : L.functions fs gs →
    ∀ (f : String) (parameter : Name) (body : Expr),
      L.functions (fs.insert f ⟨parameter, body⟩)
        (gs.insert f ⟨L.rename parameter, body.rename L.rename⟩)
  undefined : L.functions {} {}

namespace Machine

/-- The statements fetched so far, and how many may be. -/
def count (m : Machine) : Nat × Option Nat := (m.steps, m.stepLimit)

/-- The first machine runs `p` with the count `c`, and the second the program with its variables
renamed, with the count `c'`. Their memories and functions are related, and all else is the same. -/
def Lockstep (L : Likeness) (p : Program) (c c' : Nat × Option Nat) (s t : Machine) : Prop :=
  s.program = p ∧ s.count = c ∧ ∃ (memory : Memory) (functions : Std.HashMap String UserFunction),
    t = { s with
      memory, functions, program := p.rename L.rename, steps := c'.1, stepLimit := c'.2 } ∧
    L.memory s.memory memory ∧ L.functions s.functions functions

variable {L : Likeness} {p : Program} {c c' : Nat × Option Nat}

/-- The machines are coupled: evaluation and simple statements keep them alike. -/
theorem lockstep_fullCoupling (hL : L.Lawful) :
    FullCoupling L.memory L.rename (Lockstep L p c c') where
  congruence := hL.congruence
  respelling := hL.respelling
  memory := by rintro s _ ⟨-, -, _, _, rfl, hmemory, -⟩; exact hmemory
  random := by rintro s _ ⟨-, -, _, _, rfl, -, -⟩; rfl
  depth := by rintro s _ ⟨-, -, _, _, rfl, -, -⟩; rfl
  limit := by rintro s _ ⟨-, -, _, _, rfl, -, -⟩; rfl
  functions := by rintro s _ ⟨-, -, _, _, rfl, -, hfunctions⟩; exact hL.lookup hfunctions
  setMemory := by
    rintro s _ ⟨hp, hc, _, _, rfl, -, hfunctions⟩ m m' hmemory
    exact ⟨hp, hc, _, _, rfl, hmemory, hfunctions⟩
  setRandom := by rintro s _ ⟨hp, hc, _, _, rfl, h⟩ random; exact ⟨hp, hc, _, _, rfl, h⟩
  setDepth := by rintro s _ ⟨hp, hc, _, _, rfl, h⟩ depth; exact ⟨hp, hc, _, _, rfl, h⟩
  console := by
    rintro α act s _ ⟨hp, hc, _, _, rfl, h⟩
    exact ⟨rfl, hp, hc, _, _, rfl, h⟩
  read := by
    rintro s _ ⟨hp, hc, _, _, rfl, h⟩
    unfold readData
    dsimp only
    split <;> exact ⟨rfl, hp, hc, _, _, rfl, h⟩
  define := by
    rintro f parameter body s _ ⟨hp, hc, _, _, rfl, hmemory, hfunctions⟩
    exact ⟨rfl, hp, hc, _, _, rfl, hmemory, hL.define hfunctions f parameter body⟩

/-- A change of the state that looks at nothing in which the machines differ agrees with itself. -/
theorem lockstep_modify {f : Machine → Machine}
    (hf : ∀ (s : Machine) memory functions program steps stepLimit,
      f { s with memory, functions, program, steps, stepLimit } =
        { f s with memory, functions, program, steps, stepLimit }) :
    Agree (Lockstep L p c c') (Action.modify f) (Action.modify f) := by
  rintro s _ ⟨hp, hc, memory, functions, rfl, hmemory, hfunctions⟩
  have hself := hf s s.memory s.functions s.program s.steps s.stepLimit
  refine ⟨rfl, ?_, ?_, memory, functions, hf s memory functions _ _ _, ?_, ?_⟩
  · exact (congrArg Machine.program hself).trans hp
  · exact (congrArg Machine.count hself).trans hc
  · change L.memory (f s).memory memory
    rwa [congrArg Machine.memory hself]
  · change L.functions (f s).functions functions
    rwa [congrArg Machine.functions hself]

/-- The search for a line ends alike in both. -/
theorem lockstep_findLine (n : LineNumber) :
    Agree (Lockstep L p c c') (findLine n) (findLine n) := by
  rintro s _ ⟨rfl, hc, _, _, rfl, h⟩
  unfold findLine
  simp only [Program.indexOf?_rename]
  split <;> exact ⟨rfl, rfl, hc, _, _, rfl, h⟩

/-- So does GOTO. -/
theorem lockstep_goto (n : LineNumber) : Agree (Lockstep L p c c') (goto n) (goto n) :=
  (lockstep_findLine n).bind fun _ => lockstep_modify fun _ _ _ _ _ _ => rfl

/-- So does GOSUB. -/
theorem lockstep_gosub (n : LineNumber) : Agree (Lockstep L p c c') (gosub n) (gosub n) := by
  refine (lockstep_findLine n).bind fun i => ?_
  rintro s _ ⟨hp, hc, _, _, rfl, h⟩
  unfold enterSubroutine
  dsimp only
  split <;> exact ⟨rfl, hp, hc, _, _, rfl, h⟩

/-- So does RETURN. -/
theorem lockstep_comeBack : Agree (Lockstep L p c c') comeBack comeBack := by
  rintro s _ ⟨hp, hc, _, _, rfl, h⟩
  unfold comeBack
  dsimp only
  split <;> exact ⟨rfl, hp, hc, _, _, rfl, h⟩

/-- So does STOP. -/
theorem lockstep_stop : Agree (Lockstep L p c c') stop stop := by
  refine Agree.bind ?_ fun _ => lockstep_modify fun _ _ _ _ _ _ => rfl
  intro s t hst
  have hmessage : t.stopMessage = s.stopMessage := by
    obtain ⟨rfl, -, _, _, rfl, -⟩ := hst
    simp only [stopMessage, Program.rename, List.getElem?_map]
    cases s.program.lines[s.cursor.line]? <;> rfl
  obtain ⟨hp, hc, _, _, rfl, h⟩ := hst
  dsimp only
  rw [hmessage]
  exact ⟨rfl, hp, hc, _, _, rfl, h⟩

/-- RUN forgets all variables and functions, so that there is nothing left to differ in. -/
theorem lockstep_run (hL : L.Lawful) (n : Option LineNumber) :
    Agree (Lockstep L p c c') (run n) (run n) := by
  have hclear (i : Nat) : Agree (Lockstep L p c c') (Action.modify fun m => m.clear.jumpToLine i)
      (Action.modify fun m => m.clear.jumpToLine i) := by
    rintro s _ ⟨hp, hc, _, _, rfl, hmemory, -⟩
    exact ⟨rfl, hp, hc, _, _, rfl, hL.congruence.clear hmemory, hL.undefined⟩
  cases n with
  | none => exact (Agree.pure 0).bind hclear
  | some n => exact (lockstep_findLine n).bind hclear

/-- FOR goes by the folded name of its counter, in the stack of loops as in the text. -/
theorem lockstep_beginLoop (hL : L.Lawful) (counter : Name) (start limit step : Float) :
    Agree (Lockstep L p c c') (beginLoop counter start limit step)
      (beginLoop (L.rename counter) start limit step) := by
  rintro s _ ⟨rfl, hc, memory, functions, rfl, hmemory, hfunctions⟩
  have hfold := (hL.respelling counter).1
  rw [beginLoop_eq, beginLoop_eq, hfold]
  split
  · exact ⟨rfl, rfl, hc, _, _, rfl, hmemory, hfunctions⟩
  · obtain ⟨hresult, hstored⟩ :=
      hL.congruence.store counter.fold (.number start) s.memory memory hmemory
    dsimp only
    generalize Memory.store counter.fold (.number start) s.memory = x,
      Memory.store counter.fold (.number start) memory = y at hresult hstored ⊢
    obtain ⟨_ | ⟨⟨⟩⟩, m⟩ := x <;> obtain ⟨_, m'⟩ := y <;> cases hresult
    · exact ⟨rfl, rfl, hc, _, _, by simp only [outsideLoop, hfold], hstored, hfunctions⟩
    · dsimp only [enterLoop, outsideLoop]
      rw [hfold, Program.loopExit?_rename fun n => (hL.respelling n).1]
      split
      · split <;> exact ⟨rfl, rfl, hc, _, _, rfl, hstored, hfunctions⟩
      · split <;> exact ⟨rfl, rfl, hc, _, _, rfl, hstored, hfunctions⟩

/-- So does NEXT, under the new name of its counter. -/
theorem lockstep_nextLoop (hL : L.Lawful) (counter : Option Name) :
    Agree (Lockstep L p c c') (nextLoop counter) (nextLoop (counter.map L.rename)) := by
  have hstepped (loops : List Loop) :
      Loop.steppedBy (counter.map L.rename) loops = Loop.steppedBy counter loops := by
    cases counter with
    | none => rfl
    | some n => simp only [Option.map_some, Loop.steppedBy, (hL.respelling n).1]
  rintro s _ ⟨rfl, hc, memory, functions, rfl, hmemory, hfunctions⟩
  rw [nextLoop_eq, nextLoop_eq, hstepped]
  cases Loop.steppedBy counter s.loops.items with
  | nil => exact ⟨rfl, rfl, hc, _, _, rfl, hmemory, hfunctions⟩
  | cons l outer =>
    dsimp only
    rw [stepLoop_eq rfl, stepLoop_eq rfl]
    dsimp only
    rw [hL.congruence.fetch hmemory]
    split
    · exact ⟨rfl, rfl, hc, _, _, rfl, hmemory, hfunctions⟩
    case h_2 x _ =>
      split
      · obtain ⟨hresult, hstored⟩ :=
          hL.congruence.store l.counter (.number (x + l.step)) s.memory memory hmemory
        generalize Memory.store l.counter (.number (x + l.step)) s.memory = y,
          Memory.store l.counter (.number (x + l.step)) memory = z at hresult hstored ⊢
        obtain ⟨_ | ⟨⟨⟩⟩, m⟩ := y <;> obtain ⟨_, m'⟩ := z <;> cases hresult <;>
          exact ⟨rfl, rfl, hc, _, _, rfl, hstored, hfunctions⟩
      · exact ⟨rfl, rfl, hc, _, _, rfl, hmemory, hfunctions⟩

/-- The machines answer every request alike. -/
theorem lockstep_perform (hL : L.Lawful) (a : Answer) (r : Request a) :
    Agree (Lockstep L p c c') (perform a r) (perform.renamed L.rename a r) := by
  cases hsimple : r.isSimple with
  | true =>
    exact agree_of_atDepth fun d => (lockstep_fullCoupling hL).perform_simple d a r hsimple
  | false =>
    cases r with
    | restore n => exact lockstep_modify fun _ _ _ _ _ _ => by cases n <;> rfl
    | jump j n =>
      cases j with
      | goto => exact lockstep_goto n
      | gosub => exact lockstep_gosub n
    | comeBack => exact lockstep_comeBack
    | finish => exact lockstep_modify fun _ _ _ _ _ _ => rfl
    | stop => exact lockstep_stop
    | run n => exact lockstep_run hL n
    | skipLine => exact lockstep_modify fun _ _ _ _ _ _ => rfl
    | beginLoop counter start limit step => exact lockstep_beginLoop hL counter start limit step
    | nextLoop counter => exact lockstep_nextLoop hL counter
    | _ => cases hsimple

/-- The machines carry a statement and the renamed statement out alike. -/
theorem lockstep_exec (hL : L.Lawful) (s : Statement) (patience : Nat) :
    Agree (Lockstep L p c c') (s.exec perform patience)
      ((s.rename L.rename).exec perform patience) := by
  rw [Statement.exec_rename perform fun n => (hL.respelling n).2]
  exact Statement.exec_agree s patience fun a r _ => lockstep_perform hL a r

/-! ## Runs -/

/-- Both programs go on, or both are over with the same result, and the machines are related. -/
def Progress.Agree (R : Machine → Machine → Prop) : Progress → Progress → Prop
  | running s, running t => R s t
  | finished r s, finished r' t => r = r' ∧ R s t
  | _, _ => False

/-- A weaker relation holds of the same runs. -/
theorem Progress.Agree.mono {R R' : Machine → Machine → Prop} (hR : ∀ s t, R s t → R' s t)
    {x y : Progress} (h : Progress.Agree R x y) : Progress.Agree R' x y := by
  cases x <;> cases y
  case running.running => exact hR _ _ h
  case finished.finished => exact ⟨h.1, hR _ _ h.2⟩
  all_goals cases h

/-- How a turn ends whose statement stands on `line` and came to a result. -/
def conclude (line : Line) : Except Error Unit × Machine → Progress
  | (.ok (), m) => m.proceed
  | (.error e, m) => .finished (.error (e.inLine line.number)) m

/-- A turn carries out the statement at the settled cursor, if there is one. -/
theorem turn_eq (m : Machine) :
    m.turn = match m.settle.program.at? m.settle.cursor with
      | none => .finished (.ok ()) m.settle
      | some (line, s) => conclude line (step s m.settle) := by
  unfold turn
  dsimp only
  cases m.settle.program.at? m.settle.cursor with
  | none => rfl
  | some fetched => rfl

/-- A statement is counted before it is carried out. -/
theorem step_apply (x : Statement) (m : Machine) :
    step x m = match beginStep m with
      | (.ok (), m) => x.exec perform m.patience m
      | (.error e, m) => (.error e, m) := by
  rcases hbegin : beginStep m with ⟨_ | ⟨⟨⟩⟩, m'⟩
  · exact bind_of_error hbegin
  · exact bind_of_ok hbegin

variable {s t : Machine}

/-- Both machines settle at the same place. -/
theorem Lockstep.settle (h : Lockstep L p c c' s t) : Lockstep L p c c' s.settle t.settle := by
  obtain ⟨rfl, hc, _, _, rfl, h⟩ := h
  exact ⟨rfl, hc, _, _, by simp only [Machine.settle, Program.settle_rename], h⟩

/-- The second machine fetches the renamed statement. -/
theorem Lockstep.at? (h : Lockstep L p c c' s t) :
    t.program.at? t.cursor =
      (s.program.at? s.cursor).map fun (line, x) => (line.rename L.rename, x.rename L.rename) := by
  obtain ⟨rfl, -, _, _, rfl, -⟩ := h
  exact Program.at?_rename s.program s.cursor

/-- Both go on to the same statement, or are over. -/
theorem Lockstep.proceed (h : Lockstep L p c c' s t) :
    Progress.Agree (Lockstep L p c c') s.proceed t.proceed := by
  obtain ⟨hp, hc, _, _, rfl, h⟩ := h
  unfold Machine.proceed
  cases hflow : s.flow
  · exact ⟨hp, hc, _, _, rfl, h⟩
  · exact ⟨hp, hc, _, _, rfl, h⟩
  · exact ⟨rfl, hp, hc, _, _, by rw [hflow], h⟩

/-- A statement that both machines have counted ends the turn of both alike. -/
theorem Lockstep.conclude (hL : L.Lawful) (h : Lockstep L p c c' s t) (line : Line)
    (x : Statement) :
    Progress.Agree (Lockstep L p c c') (conclude line (x.exec perform s.patience s))
      (Machine.conclude (line.rename L.rename)
        ((x.rename L.rename).exec perform t.patience t)) := by
  have hpatience : t.patience = s.patience := by
    obtain ⟨-, -, _, _, rfl, -⟩ := h
    rfl
  obtain ⟨hresult, hstate⟩ := lockstep_exec hL x s.patience s t h
  rw [hpatience]
  generalize x.exec perform s.patience s = y,
    (x.rename L.rename).exec perform s.patience t = z at hresult hstate ⊢
  obtain ⟨_ | ⟨⟨⟩⟩, s'⟩ := y <;> obtain ⟨_, t'⟩ := z <;> cases hresult
  · exact ⟨rfl, hstate⟩
  · exact hstate.proceed

/-- The machines are in lockstep and have counted alike. -/
def InStep (L : Likeness) (p : Program) (s t : Machine) : Prop := ∃ c, Lockstep L p c c s t

/-- Machines that count alike count the next statement alike. -/
theorem inStep_beginStep (hL : L.Lawful) : Agree (InStep L p) beginStep beginStep := by
  rintro s _ ⟨_, hp, rfl, _, _, rfl, h⟩
  unfold beginStep
  dsimp only [count]
  split
  · exact ⟨rfl, _, hp, rfl, _, _, rfl, h⟩
  · split
    · exact ⟨rfl, _, hp, rfl, _, _, rfl, h⟩
    · exact ⟨rfl, _, hp, rfl, _, _, rfl, hL.congruence.advanceClock h.1, h.2⟩

/-- One turn keeps the machines in step. -/
theorem inStep_turn (hL : L.Lawful) (h : InStep L p s t) :
    Progress.Agree (InStep L p) s.turn t.turn := by
  obtain ⟨c, h⟩ := h
  have hsettle := h.settle
  rw [turn_eq, turn_eq, hsettle.at?]
  cases s.settle.program.at? s.settle.cursor with
  | none => exact ⟨rfl, c, hsettle⟩
  | some fetched =>
    obtain ⟨line, x⟩ := fetched
    obtain ⟨hresult, hcounted⟩ := inStep_beginStep hL s.settle t.settle ⟨c, hsettle⟩
    simp only [Option.map_some, step_apply]
    generalize beginStep s.settle = y, beginStep t.settle = z at hresult hcounted ⊢
    obtain ⟨_ | ⟨⟨⟩⟩, s'⟩ := y <;> obtain ⟨_, t'⟩ := z <;> cases hresult
    · exact ⟨rfl, hcounted⟩
    · obtain ⟨c, hcounted⟩ := hcounted
      exact (hcounted.conclude hL line x).mono fun _ _ h => ⟨c, h⟩

/-- Any number of turns keeps the machines in step. -/
theorem inStep_runFor (hL : L.Lawful) (turns : Nat) (h : InStep L p s t) :
    Progress.Agree (InStep L p) (s.runFor turns) (t.runFor turns) := by
  induction turns generalizing s t with
  | zero => exact h
  | succ turns ih =>
    have hturn := inStep_turn hL h
    rw [runFor, runFor]
    cases hs : s.turn <;> cases ht : t.turn <;> rw [hs, ht] at hturn
    · exact ih hturn
    · cases hturn
    · cases hturn
    · exact hturn

end Machine

end CommodoreBasic
