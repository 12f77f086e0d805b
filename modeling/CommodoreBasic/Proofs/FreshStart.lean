import CommodoreBasic.Proofs.RunInvariant
import CommodoreBasic.Proofs.StepLimit

/-!
# RUN is a fresh start

RUN without a line number goes back to the first line of the program that is running and forgets what
`Machine.clear` forgets. The machine is then the one that is made by clearing it and loading the program
again, but for the count of statements, which goes on. Without a step limit the count has no influence,
so the rest of the run is the run of the program from its start.

RUN may stand under IFs. Their conditions are evaluated before it, and evaluation changes nothing in a
machine but memory and the random generator.
-/

namespace CommodoreBasic

open CommodoreBasic.Action

namespace Statement

variable {σ : Type} (h : Handler σ)

/-- Evaluates the conditions of the IFs that a statement stands under, up to the first that fails, and
says whether all of them hold. -/
def conditions : Statement → Action σ Bool
  | ifThen condition s => do
    let v ← condition.eval h
    if v.isTrue then s.conditions else pure false
  | _ => pure true

/-- A statement under IFs is carried out if their conditions hold; otherwise the rest of the line is
passed over. -/
theorem exec_eq_conditions (patience : Nat) (s : Statement) :
    s.exec h patience = s.conditions h >>= fun holds =>
      if holds then s.stripIfs.exec h patience else h .done .skipLine := by
  induction s with
  | ifThen condition s ih =>
    rw [exec, conditions, bind_assoc]
    apply congrArg (condition.eval h >>= ·)
    funext v
    by_cases hv : v.isTrue
    · rw [if_pos hv, if_pos hv, ih]
      rfl
    · rw [if_neg hv, if_neg hv, pure_bind, if_neg Bool.false_ne_true]
  | _ => rfl

end Statement

namespace Machine

variable {m v : Machine} {p : Program} {line : Line} {s : Statement}

/-- The evaluation of the conditions of IFs changes nothing but memory and the random generator. -/
theorem conditions_beside (s : Statement) (m : Machine) :
    ∃ memory random, (s.conditions perform m).2 = { m with memory, random } := by
  induction s generalizing m with
  | ifThen condition s ih =>
    obtain ⟨memory, random, heval⟩ := eval_beside condition m
    rw [Statement.conditions, bind_apply]
    rcases hcondition : condition.eval perform m with ⟨_ | v, m'⟩
    · rw [hcondition] at heval
      exact ⟨memory, random, heval⟩
    · rw [hcondition] at heval
      dsimp only at heval ⊢
      subst heval
      by_cases hv : v.isTrue
      · rw [if_pos hv]
        exact ih { m with memory, random }
      · rw [if_neg hv]
        exact ⟨memory, random, rfl⟩
  | _ => exact ⟨m.memory, m.random, rfl⟩

/-! ## Runs that differ in the count -/

/-- The machine with `d` more statements counted. -/
def addSteps (d : Nat) (m : Machine) : Machine := { m with steps := m.steps + d }

/-- The same for a machine that is running or has finished. -/
def Progress.addSteps (d : Nat) : Progress → Progress
  | running m => running (m.addSteps d)
  | finished result m => finished result (m.addSteps d)

/-- Once a statement is counted, it does the same whatever the count is. -/
theorem conclude_addSteps (m : Machine) (line : Line) (s : Statement) (d : Nat) :
    conclude line (s.exec perform (m.addSteps d).patience (m.addSteps d)) =
      (conclude line (s.exec perform m.patience m)).addSteps d := by
  have hlockstep : Lockstep identity m.program m.count (m.steps + d, m.stepLimit) m (m.addSteps d) := by
    refine ⟨rfl, rfl, m.memory, m.functions, ?_, rfl, rfl⟩
    simp only [addSteps, identity, Program.rename_id]
  have heq (a b : Machine)
      (h : Lockstep identity m.program m.count (m.steps + d, m.stepLimit) a b) : b = a.addSteps d := by
    obtain ⟨hp, hcount, _, _, rfl, rfl, rfl⟩ := h
    have hsteps : a.steps = m.steps := congrArg Prod.fst hcount
    have hlimit : a.stepLimit = m.stepLimit := congrArg Prod.snd hcount
    simp only [addSteps, identity, Program.rename_id, hsteps, ← hlimit, ← hp]
  have hagree := hlockstep.conclude identity_lawful line s
  rw [identity, Line.rename_id, Statement.rename_id] at hagree
  generalize conclude line (s.exec perform m.patience m) = x,
    conclude line (s.exec perform (m.addSteps d).patience (m.addSteps d)) = y at hagree ⊢
  cases x <;> cases y
  case running.running a b =>
    rw [heq a b hagree]
    rfl
  case finished.finished r a r' b =>
    rw [heq a b hagree.2, ← hagree.1]
    rfl
  all_goals cases hagree

/-- Without a step limit a turn does the same whatever the count is. -/
theorem turn_addSteps (hlimit : m.stepLimit = none) (d : Nat) :
    (m.addSteps d).turn = m.turn.addSteps d := by
  have hlimit' : (m.addSteps d).stepLimit = none := hlimit
  cases hfetch : m.fetch? with
  | none =>
    rw [turn_eq, turn_eq]
    unfold fetch? at hfetch
    cases hat : m.settle.program.at? m.settle.cursor with
    | none =>
      have hat' : (m.addSteps d).settle.program.at? (m.addSteps d).settle.cursor = none := hat
      rw [hat']
      rfl
    | some fetched =>
      have hat' : (m.addSteps d).settle.program.at? (m.addSteps d).settle.cursor = some fetched := hat
      have hbreak : m.interrupted = true := by
        by_contra hfree
        rw [if_neg hfree, hat] at hfetch
        cases hfetch
      have hsettled : m.settle.interrupted = true := hbreak
      have hsettled' : (m.addSteps d).settle.interrupted = true := hbreak
      rw [hat']
      dsimp only
      rw [step_apply, step_apply, beginStep, beginStep, if_pos hsettled, if_pos hsettled']
      rfl
  | some fetched =>
    obtain ⟨line, s⟩ := fetched
    have hfetch' : (m.addSteps d).fetch? = some (line, s) := hfetch
    have hcounted : (m.addSteps d).counted = m.counted.addSteps d := by
      simp only [counted, addSteps, settle, advanceClock, Nat.add_right_comm]
    rw [(turn_of_fetch? hfetch hlimit).1, (turn_of_fetch? hfetch' hlimit').1, hcounted,
      conclude_addSteps]

/-- Without a step limit a run does the same whatever the count is. -/
theorem runFor_addSteps (hlimit : m.stepLimit = none) (d n : Nat) :
    (m.addSteps d).runFor n = (m.runFor n).addSteps d := by
  induction n generalizing m with
  | zero => rfl
  | succ n ih =>
    have hcount := turn_count hlimit
    rw [runFor, runFor, turn_addSteps hlimit]
    cases hturn : m.turn with
    | running m' =>
      rw [hturn] at hcount
      exact ih (congrArg Prod.snd hcount)
    | finished result m' => rfl

/-! ## The turn that carries RUN out -/

/-- After RUN the machine is as if it had been cleared and loaded with its program again, but that the
statements fetched so far still count. -/
theorem turn_run {u : Machine} (hsound : v.Sound p) (hlimit : v.stepLimit = none)
    (hfetch : v.fetch? = some (line, s)) (hs : s.stripIfs = .run none)
    (hconditions : s.conditions perform v.counted = (.ok true, u)) :
    v.turn = .running ((u.clear.load p).addSteps u.steps) := by
  obtain ⟨memory, random, hu⟩ := conditions_beside s v.counted
  rw [hconditions] at hu
  have hfree : v.interrupted = false := by
    by_contra hbreak
    rw [fetch?, if_pos (by simpa using hbreak)] at hfetch
    cases hfetch
  have hexec : s.exec perform v.counted.patience v.counted = (.ok (), u.clear.jumpToLine 0) := by
    rw [Statement.exec_eq_conditions, bind_of_ok hconditions, if_pos rfl, hs]
    rfl
  have hpool : v.data.rewind = DataPool.ofProgram p := by
    rw [hsound.pool]
    rfl
  rw [(turn_of_fetch? hfetch hlimit).1, hexec]
  dsimp only at hu
  subst hu
  simp only [conclude, proceed, jumpToLine, jumpTo, load, addSteps, clear, counted, settle,
    advanceClock, Stack.clear, hpool, hsound.program, hsound.depth, hfree, Nat.zero_add]

/-- RUN without a line number is a fresh start. Where a program without a step limit has run for `n`
turns and the statement fetched next is RUN, under IFs all of whose conditions hold, let `u` be the
machine as RUN finds it: `n + 1` statements have been fetched, and the rest of the run is that of the
program on the cleared machine `u`. After any number of turns both runs go on or are over with the same
result, and the machines agree in everything but the count, which is greater by `n + 1`. -/
theorem execute_run {u : Machine} (hlimit : m.stepLimit = none) {n : Nat}
    (hreached : m.execute p n = .running v) (hfetch : v.fetch? = some (line, s))
    (hs : s.stripIfs = .run none) (hconditions : s.conditions perform v.counted = (.ok true, u))
    (k : Nat) :
    u.steps = n + 1 ∧
      m.execute p (n + 1 + k) = (u.clear.execute p k).addSteps (n + 1) := by
  have hcount := runFor_count (m := m.load p) n hlimit
  have hv := sound_of_execute hreached
  rw [execute] at hreached
  rw [hreached] at hcount
  have hvsteps : v.steps = n := (congrArg Prod.fst hcount).trans (Nat.zero_add n)
  have hvlimit : v.stepLimit = none := congrArg Prod.snd hcount
  obtain ⟨memory, random, hu⟩ := conditions_beside s v.counted
  rw [hconditions] at hu
  have husteps : u.steps = n + 1 := by
    rw [congrArg Machine.steps hu, ← hvsteps]
    rfl
  have hulimit : (u.clear.load p).stepLimit = none :=
    (congrArg Machine.stepLimit hu).trans hvlimit
  refine ⟨husteps, ?_⟩
  have hturn := turn_run hv hvlimit hfetch hs hconditions
  rw [execute, Nat.add_assoc, runFor_add, hreached, Nat.add_comm 1 k]
  dsimp only
  rw [runFor, hturn]
  dsimp only
  rw [runFor_addSteps hulimit, husteps]
  rfl

/-- A program that starts over from within a subroutine, with one of two DATA items read. -/
def restarting : Program where
  lines := [
    { number := 10, statements := [.data [.text "X", .text "Y"], .read [.scalar "A$"], .jump .gosub 20] },
    { number := 20, statements := [.ifThen (.scalar "A$") (.ifThen (.literal (.text "GO")) (.run none))] }]

/-- The machine in the subroutine, after three turns. -/
def inSubroutine : Machine :=
  { (new {} 0 10).load restarting with
    memory := { scalars := Std.HashMap.insert {} "A$" (.text "X") }
    returns := { limit := 10, items := [1] }
    data := { DataPool.ofProgram restarting with next := 1 }
    cursor := { line := 1 }
    steps := 3 }

/-- RUN starts a program over from within a subroutine. -/
theorem execute_run_restarting :
    (new {} 0 10).execute restarting 3 = .running inSubroutine ∧
      inSubroutine.counted.steps = 3 + 1 ∧
      (new {} 0 10).execute restarting (3 + 1 + 9) =
        (inSubroutine.counted.clear.execute restarting 9).addSteps (3 + 1) := by
  have hdata : ((new {} 0 10).load restarting).turn =
      .running { (new {} 0 10).load restarting with cursor := ⟨0, 1⟩, steps := 1 } := rfl
  have hread : turn { (new {} 0 10).load restarting with cursor := ⟨0, 1⟩, steps := 1 } =
      .running { inSubroutine with cursor := ⟨0, 2⟩, steps := 2, returns := { limit := 10 } } := rfl
  have hgosub : turn { inSubroutine with cursor := ⟨0, 2⟩, steps := 2, returns := { limit := 10 } } =
      .running inSubroutine := rfl
  have hreached : (new {} 0 10).execute restarting 3 = .running inSubroutine := by
    rw [execute, runFor, hdata]
    dsimp only
    rw [runFor, hread]
    dsimp only
    rw [runFor, hgosub]
    rfl
  have hvalue : inSubroutine.memory.fetch "A$" = .text "X" := by
    have hfold : Name.fold "A$" = "A$" := by decide
    simp [inSubroutine, Memory.fetch, hfold]
  have hconditions : Statement.conditions perform
      (.ifThen (.scalar "A$") (.ifThen (.literal (.text "GO")) (.run none))) inSubroutine.counted =
        (.ok true, inSubroutine.counted) := by
    have heval : Expr.eval perform (.scalar "A$") inSubroutine.counted =
        (.ok (.text "X"), inSubroutine.counted) :=
      congrArg (fun v => (Except.ok v, inSubroutine.counted)) hvalue
    rw [Statement.conditions, bind_of_ok heval]
    rfl
  have hrun := execute_run rfl hreached rfl rfl hconditions 9
  exact ⟨hreached, hrun⟩

end Machine

end CommodoreBasic
