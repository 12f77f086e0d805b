import CommodoreBasic.Proofs.Lockstep

/-!
# The step limit

A machine with a step limit is compared with the same machine without one. As long as the limit is not
passed the two go in lockstep; once as many statements have been fetched as may be, the next one that
is fetched ends the program before it has any effect. Statements are counted when they are fetched: one
in each turn, unless BREAK was pressed or there is no statement left, and then the turn is the last.
-/

namespace CommodoreBasic.Machine

open CommodoreBasic.Action

/-- The machine with a step limit, or with none. -/
def withStepLimit (m : Machine) (limit : Option Nat) : Machine := { m with stepLimit := limit }

/-- The same for a machine that is running or has finished. -/
def Progress.withStepLimit (limit : Option Nat) : Progress → Progress
  | running m => running (m.withStepLimit limit)
  | finished result m => finished result (m.withStepLimit limit)

/-- The statement that the next turn fetches and counts, with its line. -/
def fetch? (m : Machine) : Option (Line × Statement) :=
  if m.interrupted then none else m.settle.program.at? m.settle.cursor

/-- The machine once it has counted the statement that it fetches, and the clock has gone on. -/
def counted (m : Machine) : Machine := { m.settle with steps := m.steps + 1 }.advanceClock

/-- The machines differ in nothing but the count. -/
def identity : Likeness where
  rename := id
  memory := Eq
  functions := Eq

/-- Machines that differ in nothing answer alike. -/
theorem identity_lawful : identity.Lawful where
  respelling := Name.Respelling.id
  congruence := Memory.Congruence.eq
  lookup := by
    rintro fs _ rfl f
    exact UserFunction.Respelled.rel_self fs[f]?
  define := by
    rintro fs _ rfl f parameter body
    rw [identity, Expr.rename_id]
    rfl
  undefined := rfl

variable {m : Machine} {line : Line} {s : Statement} {limit : Option Nat} {k : Nat}

/-- A machine and the same one under another limit start in step. -/
theorem lockstep_withStepLimit (m : Machine) (limit : Option Nat) :
    Lockstep identity m.program m.count (m.steps, limit) m (m.withStepLimit limit) := by
  refine ⟨rfl, rfl, m.memory, m.functions, ?_, rfl, rfl⟩
  simp only [withStepLimit, identity, Program.rename_id]

/-- Machines in step differ by the limit only. -/
theorem eq_withStepLimit {c : Nat × Option Nat} {p : Program} {m m' : Machine}
    (h : Lockstep identity p c (c.1, limit) m m') :
    m' = m.withStepLimit limit ∧ m.count = c := by
  obtain ⟨rfl, rfl, _, _, rfl, rfl, rfl⟩ := h
  refine ⟨?_, rfl⟩
  simp only [withStepLimit, identity, Program.rename_id, count]

/-- Once a statement is counted, the limit has no influence on what it does, and it counts no other. -/
theorem conclude_withStepLimit (m : Machine) (line : Line) (s : Statement) (limit : Option Nat) :
    conclude line (s.exec perform (m.withStepLimit limit).patience (m.withStepLimit limit)) =
        (conclude line (s.exec perform m.patience m)).withStepLimit limit ∧
      (conclude line (s.exec perform m.patience m)).machine.count = m.count := by
  have hagree := (lockstep_withStepLimit m limit).conclude identity_lawful line s
  rw [identity, Line.rename_id, Statement.rename_id] at hagree
  generalize conclude line (s.exec perform m.patience m) = x,
    conclude line (s.exec perform (m.withStepLimit limit).patience (m.withStepLimit limit)) = y
    at hagree ⊢
  cases x <;> cases y
  case running.running a b =>
    obtain ⟨rfl, hcount⟩ := eq_withStepLimit (c := m.count) hagree
    exact ⟨rfl, hcount⟩
  case finished.finished r a r' b =>
    obtain ⟨rfl, hagree⟩ := hagree
    obtain ⟨rfl, hcount⟩ := eq_withStepLimit (c := m.count) hagree
    exact ⟨rfl, hcount⟩
  all_goals cases hagree

/-- A turn that fetches nothing is the last, and the limit does not matter to it. -/
theorem turn_of_fetch?_eq_none (h : m.fetch? = none) :
    ∃ result u, m.turn = .finished result u ∧ u.steps = m.steps ∧
      ∀ limit, (m.withStepLimit limit).turn = .finished result (u.withStepLimit limit) := by
  unfold fetch? at h
  cases hat : m.settle.program.at? m.settle.cursor with
  | none =>
    have hturn (limit : Option Nat) :
        (m.withStepLimit limit).turn = .finished (.ok ()) (m.settle.withStepLimit limit) := by
      have hat' : (m.withStepLimit limit).settle.program.at? (m.withStepLimit limit).settle.cursor =
          none := hat
      rw [turn_eq, hat']
      rfl
    exact ⟨.ok (), m.settle, hturn m.stepLimit, rfl, hturn⟩
  | some fetched =>
    obtain ⟨line, s⟩ := fetched
    have hbreak : m.interrupted = true := by
      by_contra hfree
      rw [if_neg hfree, hat] at h
      cases h
    have hturn (limit : Option Nat) :
        (m.withStepLimit limit).turn =
          .finished (.error { kind := .breakPressed, line := some line.number })
            ({ m.settle with interrupted := false }.withStepLimit limit) := by
      have hat' : (m.withStepLimit limit).settle.program.at? (m.withStepLimit limit).settle.cursor =
          some (line, s) := hat
      have hbegin : beginStep (m.withStepLimit limit).settle =
          (raise .breakPressed, { (m.withStepLimit limit).settle with interrupted := false }) :=
        if_pos hbreak
      rw [turn_eq, hat']
      dsimp only
      rw [step_apply, hbegin]
      rfl
    exact ⟨_, _, hturn m.stepLimit, rfl, hturn⟩

/-- A turn that fetches a statement counts it, and carries it out unless there is one too many. -/
theorem turn_of_fetch?_eq_some (h : m.fetch? = some (line, s)) :
    m.turn = if m.stepLimit.any (· < m.steps + 1) then
        .finished (.error { kind := .infiniteLoop, line := some line.number })
          { m.settle with steps := m.steps + 1 }
      else conclude line (s.exec perform m.counted.patience m.counted) := by
  unfold fetch? at h
  split at h
  · cases h
  case isFalse hfree =>
    have hbegin : beginStep m.settle = if m.stepLimit.any (· < m.steps + 1) then
        (raise .infiniteLoop, { m.settle with steps := m.steps + 1 }) else (.ok (), m.counted) :=
      if_neg hfree
    rw [turn_eq, h]
    dsimp only
    rw [step_apply, hbegin]
    by_cases hover : m.stepLimit.any (· < m.steps + 1)
    · rw [if_pos hover, if_pos hover]
      rfl
    · rw [if_neg hover, if_neg hover]

/-- Without a limit the turn carries the statement out. -/
theorem turn_of_fetch? (h : m.fetch? = some (line, s)) (hlimit : m.stepLimit = none) :
    m.turn = conclude line (s.exec perform m.counted.patience m.counted) ∧
      m.turn.machine.count = (m.steps + 1, none) := by
  have hturn : m.turn = conclude line (s.exec perform m.counted.patience m.counted) := by
    rw [turn_of_fetch?_eq_some h, hlimit]
    rfl
  refine ⟨hturn, ?_⟩
  rw [hturn, (conclude_withStepLimit m.counted line s none).2, count, counted]
  exact congrArg _ hlimit

/-- Below the limit a turn is that of the machine without one. -/
theorem turn_withStepLimit_of_lt (hlimit : m.stepLimit = none) (hk : m.steps < k) :
    (m.withStepLimit (some k)).turn = m.turn.withStepLimit (some k) := by
  cases h : m.fetch? with
  | none =>
    obtain ⟨result, u, hturn, -, hlimited⟩ := turn_of_fetch?_eq_none h
    rw [hturn, hlimited]
    rfl
  | some fetched =>
    obtain ⟨line, s⟩ := fetched
    have h' : (m.withStepLimit (some k)).fetch? = some (line, s) := h
    have hbelow : ¬ (m.withStepLimit (some k)).stepLimit.any
        (· < (m.withStepLimit (some k)).steps + 1) := by
      intro hover
      have : k < m.steps + 1 := of_decide_eq_true hover
      omega
    rw [(turn_of_fetch? h hlimit).1, turn_of_fetch?_eq_some h', if_neg hbelow]
    exact (conclude_withStepLimit m.counted line s (some k)).1

/-- At the limit the statement that is fetched ends the program and has no effect. -/
theorem turn_withStepLimit_of_le (h : m.fetch? = some (line, s)) (hk : k ≤ m.steps) :
    (m.withStepLimit (some k)).turn =
      .finished (.error { kind := .infiniteLoop, line := some line.number })
        { m.settle with steps := m.steps + 1, stepLimit := some k } := by
  have h' : (m.withStepLimit (some k)).fetch? = some (line, s) := h
  have hfull : (m.withStepLimit (some k)).stepLimit.any
      (· < (m.withStepLimit (some k)).steps + 1) = true :=
    decide_eq_true (Nat.lt_succ_of_le hk)
  rw [turn_of_fetch?_eq_some h', if_pos hfull]
  rfl

/-- Without a limit a turn that is not the last counts one statement, and the last at most one. -/
theorem turn_count (hlimit : m.stepLimit = none) :
    match m.turn with
    | .running u => u.count = (m.steps + 1, none)
    | .finished _ u => m.steps ≤ u.steps ∧ u.steps ≤ m.steps + 1 := by
  cases h : m.fetch? with
  | none =>
    obtain ⟨result, u, hturn, hsteps, -⟩ := turn_of_fetch?_eq_none h
    rw [hturn]
    dsimp only
    omega
  | some fetched =>
    obtain ⟨line, s⟩ := fetched
    have hcount := (turn_of_fetch? h hlimit).2
    cases hturn : m.turn with
    | running u =>
      rw [hturn] at hcount
      exact hcount
    | finished result u =>
      rw [hturn] at hcount
      have hsteps : u.steps = m.steps + 1 := congrArg Prod.fst hcount
      dsimp only
      omega

/-- Without a limit a run that goes on has counted as many statements as it took turns, and one that is
over at most as many. -/
theorem runFor_count (n : Nat) (hlimit : m.stepLimit = none) :
    match m.runFor n with
    | .running u => u.count = (m.steps + n, none)
    | .finished _ u => m.steps ≤ u.steps ∧ u.steps ≤ m.steps + n := by
  induction n generalizing m with
  | zero => exact congrArg (Prod.mk m.steps) hlimit
  | succ n ih =>
    have hturn := turn_count hlimit
    rw [runFor]
    cases hm : m.turn with
    | running m' =>
      rw [hm] at hturn
      have hsteps : m'.steps = m.steps + 1 := congrArg Prod.fst hturn
      have hrun := ih (m := m') (congrArg Prod.snd hturn)
      dsimp only
      cases hm' : m'.runFor n with
      | running u =>
        rw [hm'] at hrun
        dsimp only at hrun ⊢
        rw [hrun, hsteps, Nat.add_assoc, Nat.add_comm 1]
      | finished result u =>
        rw [hm'] at hrun
        dsimp only at hrun ⊢
        omega
    | finished result u =>
      rw [hm] at hturn
      dsimp only at hturn ⊢
      omega

/-- Without a limit the count of statements only grows. -/
theorem steps_le_runFor (n : Nat) (hlimit : m.stepLimit = none) :
    m.steps ≤ (m.runFor n).machine.steps := by
  have hcount := runFor_count n hlimit
  cases h : m.runFor n with
  | running u =>
    rw [h] at hcount
    have hsteps : u.steps = m.steps + n := congrArg Prod.fst hcount
    change m.steps ≤ u.steps
    omega
  | finished result u =>
    rw [h] at hcount
    exact hcount.1

/-- As long as no more statements have been fetched than may be, the limit cannot be noticed. -/
theorem runFor_withStepLimit (n : Nat) (hlimit : m.stepLimit = none)
    (hk : (m.runFor n).machine.steps ≤ k) :
    (m.withStepLimit (some k)).runFor n = (m.runFor n).withStepLimit (some k) := by
  induction n generalizing m with
  | zero => rfl
  | succ n ih =>
    have hcount := turn_count hlimit
    rw [runFor] at hk ⊢
    rw [runFor]
    cases hm : m.turn with
    | running m' =>
      rw [hm] at hk hcount
      have hnone : m'.stepLimit = none := congrArg Prod.snd hcount
      have hsteps : m'.steps = m.steps + 1 := congrArg Prod.fst hcount
      have hmono := steps_le_runFor n hnone
      dsimp only at hk
      rw [turn_withStepLimit_of_lt hlimit (by omega), hm]
      exact ih hnone hk
    | finished result u =>
      rw [hm] at hk
      cases h : m.fetch? with
      | none =>
        obtain ⟨result', u', hturn, -, hlimited⟩ := turn_of_fetch?_eq_none h
        rw [hm] at hturn
        cases hturn
        rw [hlimited]
        rfl
      | some fetched =>
        have hsteps := congrArg Prod.fst (turn_of_fetch? h hlimit).2
        rw [hm] at hsteps
        have hfst : u.steps = m.steps + 1 := hsteps
        have hle : u.steps ≤ k := hk
        rw [turn_withStepLimit_of_lt hlimit (by omega), hm]
        rfl

/-- The step limit is exact and otherwise cannot be noticed. If without a limit the program is over
after at most `k` statements, it is over in the same way under the limit `k`. Otherwise the first `k`
turns are the same, and then the statement fetched next ends the program with an error in its line:
it is counted and has no other effect. -/
theorem execute_withStepLimit (m : Machine) (p : Program) (k : Nat) :
    (∀ n result u, (m.withStepLimit none).execute p n = .finished result u → u.steps ≤ k →
      (m.withStepLimit (some k)).execute p n = .finished result (u.withStepLimit (some k))) ∧
    ((∀ n result u, (m.withStepLimit none).execute p n = .finished result u → k < u.steps) →
      (∀ n ≤ k, ∃ u, (m.withStepLimit none).execute p n = .running u ∧ u.steps = n ∧
        (m.withStepLimit (some k)).execute p n = .running (u.withStepLimit (some k))) ∧
      ∃ u line s, (m.withStepLimit none).execute p k = .running u ∧ u.fetch? = some (line, s) ∧
        ∀ n > k, (m.withStepLimit (some k)).execute p n =
          .finished (.error { kind := .infiniteLoop, line := some line.number })
            { u.settle with steps := k + 1, stepLimit := some k }) := by
  have hlimited (n : Nat) (hk : ((m.withStepLimit none).execute p n).machine.steps ≤ k) :
      (m.withStepLimit (some k)).execute p n =
        ((m.withStepLimit none).execute p n).withStepLimit (some k) :=
    runFor_withStepLimit n rfl hk
  refine ⟨fun n result u hfinished hsteps => ?_, fun hlong => ?_⟩
  · rw [hlimited n (by rw [hfinished]; exact hsteps), hfinished]
    rfl
  have hrunning (n : Nat) (hn : n ≤ k) :
      ∃ u, (m.withStepLimit none).execute p n = .running u ∧ u.count = (n, none) := by
    have hcount := runFor_count (m := (m.withStepLimit none).load p) n rfl
    cases h : (m.withStepLimit none).execute p n with
    | running u =>
      rw [← execute, h] at hcount
      exact ⟨u, rfl, hcount.trans (congrArg (·, none) (Nat.zero_add n))⟩
    | finished result u =>
      have hsteps := hlong n result u h
      rw [← execute, h] at hcount
      have hle : u.steps ≤ 0 + n := hcount.2
      omega
  refine ⟨fun n hn => ?_, ?_⟩
  · obtain ⟨u, hu, hcount⟩ := hrunning n hn
    have hsteps : u.steps = n := congrArg Prod.fst hcount
    refine ⟨u, hu, hsteps, ?_⟩
    rw [hlimited n (by rw [hu]; exact hsteps.trans_le hn), hu]
    rfl
  obtain ⟨u, hu, hcount⟩ := hrunning k (Nat.le_refl k)
  have hsteps : u.steps = k := congrArg Prod.fst hcount
  cases hfetch : u.fetch? with
  | none =>
    obtain ⟨result, u', hturn, hsteps', -⟩ := turn_of_fetch?_eq_none hfetch
    have hover : (m.withStepLimit none).execute p (k + 1) = .finished result u' := by
      rw [execute, runFor_add, ← execute, hu]
      dsimp only
      rw [runFor, hturn]
    have := hlong (k + 1) result u' hover
    omega
  | some fetched =>
    obtain ⟨line, s⟩ := fetched
    refine ⟨u, line, s, hu, hfetch, fun n hn => ?_⟩
    obtain ⟨j, rfl⟩ : ∃ j, n = k + (j + 1) := ⟨n - k - 1, by omega⟩
    have hk := hlimited k (by rw [hu]; exact hsteps.le)
    rw [hu] at hk
    rw [execute, runFor_add, ← execute, hk]
    dsimp only [Progress.withStepLimit]
    rw [runFor, turn_withStepLimit_of_le hfetch hsteps.ge, hsteps]

/-- A program of two statements. -/
def twoPrints : Program where
  lines := [
    { number := 10, statements := [.print [.literal (.text "A")] true] },
    { number := 20, statements := [.print [.literal (.text "B")] true] }]

/-- The machine that runs it after some turns. -/
def inTwoPrints (steps : Nat) (cursor : Position) (events : Array Event) : Machine :=
  { (new {} 0 10).load twoPrints with
    console := { calls := events.size, events }
    steps
    cursor }

/-- It prints both texts and ends. -/
theorem execute_twoPrints : (new {} 0 10).execute twoPrints 3 =
    .finished (.ok ()) (inTwoPrints 2 { line := 2 } #[.printLine "A", .printLine "B"]) := by
  have hfirst : (inTwoPrints 0 {} #[]).turn =
      .running (inTwoPrints 1 { statement := 1 } #[.printLine "A"]) := rfl
  have hsecond : (inTwoPrints 1 { statement := 1 } #[.printLine "A"]).turn =
      .running (inTwoPrints 2 { line := 1, statement := 1 } #[.printLine "A", .printLine "B"]) := rfl
  have hthird : (inTwoPrints 2 { line := 1, statement := 1 } #[.printLine "A", .printLine "B"]).turn =
      .finished (.ok ()) (inTwoPrints 2 { line := 2 } #[.printLine "A", .printLine "B"]) := rfl
  change (inTwoPrints 0 {} #[]).runFor 3 = _
  rw [runFor, hfirst]
  dsimp only
  rw [runFor, hsecond]
  dsimp only
  rw [runFor, hthird]

/-- A program that does not end. -/
def endlessJump : Program where
  lines := [{ number := 10, statements := [.jump .goto 10] }]

/-- The machine that runs it after some turns. -/
def inEndlessJump (steps : Nat) : Machine := { (new {} 0 10).load endlessJump with steps }

/-- However many turns it is given, it goes on. -/
theorem execute_endlessJump (n : Nat) :
    (new {} 0 10).execute endlessJump n = .running (inEndlessJump n) := by
  have hturn (steps : Nat) : (inEndlessJump steps).turn = .running (inEndlessJump (steps + 1)) := rfl
  have hrun (steps : Nat) :
      (inEndlessJump steps).runFor n = .running (inEndlessJump (steps + n)) := by
    induction n generalizing steps with
    | zero => rfl
    | succ n ih =>
      rw [runFor, hturn]
      dsimp only
      rw [ih, Nat.add_assoc, Nat.add_comm 1]
  have hstart := hrun 0
  rw [Nat.zero_add] at hstart
  exact hstart

/-- Under a limit of two, two statements are carried out to the end of their program, and a program that
does not end is ended when it comes to the third. -/
theorem execute_withStepLimit_two :
    ((new {} 0 10).withStepLimit (some 2)).execute twoPrints 3 =
      .finished (.ok ())
        ((inTwoPrints 2 { line := 2 } #[.printLine "A", .printLine "B"]).withStepLimit (some 2)) ∧
    ∀ n > 2, ((new {} 0 10).withStepLimit (some 2)).execute endlessJump n =
      .finished (.error { kind := .infiniteLoop, line := some 10 })
        ((inEndlessJump 3).withStepLimit (some 2)) := by
  refine ⟨?_, ?_⟩
  · exact (execute_withStepLimit (new {} 0 10) twoPrints 2).1 3 _ _ execute_twoPrints (Nat.le_refl 2)
  · have hendless (n : Nat) (result : Except Error Unit) (u : Machine)
        (h : ((new {} 0 10).withStepLimit none).execute endlessJump n = .finished result u) :
        2 < u.steps := by
      cases (execute_endlessJump n).symm.trans h
    obtain ⟨-, u, line, s, hu, hfetch, hended⟩ :=
      (execute_withStepLimit (new {} 0 10) endlessJump 2).2 hendless
    cases (execute_endlessJump 2).symm.trans hu
    cases hfetch
    exact hended

end CommodoreBasic.Machine
