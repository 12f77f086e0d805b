import CommodoreBasic.Machine.Run
import CommodoreBasic.Proofs.Coupling
import CommodoreBasic.Proofs.LoopStack
import CommodoreBasic.Proofs.Positions

/-!
# What every run preserves

A machine is sound for a program if its cursor lies within the program, its stacks hold nothing but
places of the program within the limit, no two of its loops run over one counter, and it is about to
fetch a statement: nothing has been jumped over and no user function is being called. A machine that
has just been loaded is sound, and each round keeps it so, until the program is over.

A round is finer than a turn, as passing on to the next line is a round of its own, so the
invariant is also known between two lines without statements.
-/

namespace CommodoreBasic

open CommodoreBasic.Action

namespace Action

variable {σ α β : Type} {P : σ → Prop} {Q : β → σ → Prop}

/-- If the action does not fail, it leads from states with `P` to results and states with `Q`. -/
def Ensures (P : σ → Prop) (x : Action σ α) (Q : α → σ → Prop) : Prop :=
  ∀ s a s', P s → x s = (.ok a, s') → Q a s'

/-- What an action ensures the next may assume. -/
theorem Ensures.bind {x : Action σ α} {P' : α → σ → Prop} {f : α → Action σ β}
    (hx : Ensures P x P') (hf : ∀ a, Ensures (P' a) (f a) Q) : Ensures P (x >>= f) Q := by
  intro s b s'' hs hbind
  rw [bind_apply] at hbind
  rcases hxs : x s with ⟨_ | a, s'⟩ <;> rw [hxs] at hbind
  · cases hbind
  · exact hf a s' b s'' (hx s a s' hs hxs) hbind

/-- A value that is merely given ensures what held before. -/
theorem Ensures.pure {b : β} (h : ∀ s, P s → Q b s) : Ensures P (pure b : Action σ β) Q := by
  rintro s _ _ hs ⟨⟩
  exact h s hs

/-- A change of the state ensures what it leads to. -/
theorem Ensures.modify {f : σ → σ} {Q : Unit → σ → Prop} (h : ∀ s, P s → Q () (f s)) :
    Ensures P (modify f) Q := by
  rintro s _ _ hs ⟨⟩
  exact h s hs

end Action

namespace Program

/-- The start of a line, or what is behind the last, lies within the program. -/
theorem within_line {p : Program} {i : Nat} (h : i ≤ p.lines.length) : p.Within { line := i } :=
  ⟨h, fun _ _ => Nat.zero_le _⟩

/-- The line that is found is one of the program. -/
theorem lt_of_indexOf? {p : Program} {n : LineNumber} {i : Nat} (h : p.indexOf? n = some i) :
    i < p.lines.length :=
  (List.findIdx?_eq_some_iff_getElem.mp h).1

end Program

namespace DataPool

/-- The items of a line begin among those of all lines. -/
theorem start_le_of_mem {lines : List Line} {count : Nat} {start : LineNumber × Nat}
    (h : start ∈ startsFrom count lines) :
    start.2 ≤ count + (lines.flatMap Line.dataItems).length := by
  induction lines generalizing count with
  | nil => cases h
  | cons line lines ih =>
    rw [startsFrom] at h
    rw [List.flatMap_cons, List.length_append]
    split at h
    · have := ih h
      omega
    · rcases List.mem_cons.mp h with rfl | h
      · exact Nat.le_add_right _ _
      · have := ih h
        omega

end DataPool

/-- The loop has been started by a FOR of the program over its counter, and resumes behind it. -/
structure Loop.Rooted (p : Program) (l : Loop) : Prop where
  step_ne_zero : (l.step == 0) = false
  resume : ∃ line, p.lines[l.resume.line]? = some line ∧ 1 ≤ l.resume.statement ∧
    l.resume.statement ≤ line.statements.length ∧
    ∃ s counter start limit step, line.statements[l.resume.statement - 1]? = some s ∧
      s.stripIfs = .loop counter start limit step ∧ counter.fold = l.counter

namespace Machine

variable {α : Type} {p : Program} {m : Machine} {c : Position}

/-- Everything in the machine that refers to places of the program does so rightly. -/
structure Contexts (p : Program) (m : Machine) : Prop where
  program : m.program = p
  pool : m.data = { DataPool.ofProgram p with next := m.data.next }
  next_le : m.data.next ≤ m.data.items.size
  loops_le : m.loops.size ≤ m.loops.limit
  returns_le : m.returns.size ≤ m.returns.limit
  returns_mem : ∀ i ∈ m.returns.items, 1 ≤ i ∧ i ≤ p.lines.length
  counters_nodup : (m.loops.items.map Loop.counter).Nodup
  rooted : ∀ l ∈ m.loops.items, l.Rooted p

/-- The machine is about to fetch a statement or to find that there is none. -/
structure Sound (p : Program) (m : Machine) : Prop extends Contexts p m where
  within : p.Within m.cursor
  flow : m.flow = .advance
  depth : m.depth = 0

namespace Contexts

variable {m' : Machine}

/-- Nothing but the program, the pool and the stacks matters. -/
theorem of_eq (h : m.Contexts p) (hprogram : m'.program = m.program) (hdata : m'.data = m.data)
    (hloops : m'.loops = m.loops) (hreturns : m'.returns = m.returns) : m'.Contexts p where
  program := hprogram.trans h.program
  pool := hdata ▸ h.pool
  next_le := hdata ▸ h.next_le
  loops_le := hloops ▸ h.loops_le
  returns_le := hreturns ▸ h.returns_le
  returns_mem := hreturns ▸ h.returns_mem
  counters_nodup := hloops ▸ h.counters_nodup
  rooted := hloops ▸ h.rooted

/-- A jump moves the cursor only. -/
theorem jumpTo (h : m.Contexts p) (pos : Position) : (m.jumpTo pos).Contexts p :=
  h.of_eq rfl rfl rfl rfl

/-- Loops may be left. -/
theorem setLoops (h : m.Contexts p) {loops : List Loop} (hsub : loops.Sublist m.loops.items) :
    Contexts p { m with loops := { m.loops with items := loops } } :=
  { h with
    loops_le := Nat.le_trans hsub.length_le h.loops_le
    counters_nodup := h.counters_nodup.sublist (hsub.map _)
    rooted := fun l hl => h.rooted l (hsub.subset hl) }

/-- A loop may be started if it is rooted and no other runs over its counter. -/
theorem pushLoop (h : m.Contexts p) {l : Loop} {loops : Stack Loop} (hl : l.Rooted p)
    (hnew : l.counter ∉ m.loops.items.map Loop.counter) (hpush : m.loops.push l = .ok loops) :
    Contexts p { m with loops } := by
  have hsize := Stack.size_le_of_push hpush
  have hitems := Stack.items_of_push hpush
  refine { h with loops_le := hsize, counters_nodup := ?_, rooted := ?_ }
  · simpa only [hitems, List.map_cons, List.nodup_cons] using ⟨hnew, h.counters_nodup⟩
  · rw [hitems]
    exact List.forall_mem_cons.mpr ⟨hl, h.rooted⟩

/-- DATA may be read on from anywhere in the pool. -/
theorem setNext (h : m.Contexts p) {next : Nat} (hnext : next ≤ m.data.items.size) :
    Contexts p { m with data := { m.data with next } } :=
  { h with
    pool := by
      have hpool := h.pool
      rw [hpool]
    next_le := hnext }

/-- Clearing leaves nothing to refer to the program but the pool. -/
theorem clear (h : m.Contexts p) : m.clear.Contexts p where
  program := h.program
  pool := (h.setNext (Nat.zero_le _)).pool
  next_le := Nat.zero_le _
  loops_le := Nat.zero_le _
  returns_le := Nat.zero_le _
  returns_mem := by simp [Machine.clear, Stack.clear]
  counters_nodup := List.nodup_nil
  rooted := by simp [Machine.clear, Stack.clear]

end Contexts

/-- A machine with a program loaded is sound for it. -/
theorem sound_load (m : Machine) (p : Program) : (m.load p).Sound p where
  program := rfl
  pool := rfl
  next_le := Nat.zero_le _
  loops_le := Nat.zero_le _
  returns_le := Nat.zero_le _
  returns_mem := by simp [load, Stack.clear]
  counters_nodup := List.nodup_nil
  rooted := by simp [load, Stack.clear]
  within := Program.within_line (Nat.zero_le _)
  flow := rfl
  depth := rfl

/-- The machine is carrying out the statement at `c`, and nothing has been jumped over. -/
structure Ready (p : Program) (c : Position) (m : Machine) : Prop extends Contexts p m where
  cursor : m.cursor = c
  flow : m.flow = .advance

/-- The machine has carried out the statement at `c`. -/
def After (p : Program) (c : Position) (m : Machine) : Prop :=
  match m.flow with
  | .advance => m.Ready p c ∧ m.depth = 0
  | .jumped => m.Contexts p ∧ p.Within m.cursor ∧ m.depth = 0
  | .halted => True

/-- A statement that did not move the cursor is followed by the next one. -/
theorem Ready.after (h : m.Ready p c) (hdepth : m.depth = 0) : m.After p c := by
  unfold After
  rw [h.flow]
  exact ⟨h, hdepth⟩

/-- After a jump within the program all is well. -/
theorem Contexts.after_jumpTo (h : m.Contexts p) {pos : Position} (hpos : p.Within pos)
    (hdepth : m.depth = 0) : (m.jumpTo pos).After p c :=
  ⟨h.jumpTo pos, hpos, hdepth⟩

/-- Being ready does not depend on what evaluation and simple statements change. -/
theorem insensitive_ready (p : Program) (c : Position) : Insensitive (Ready p c) where
  setMemory h _ := ⟨h.of_eq rfl rfl rfl rfl, h.cursor, h.flow⟩
  setRandom h _ := ⟨h.of_eq rfl rfl rfl rfl, h.cursor, h.flow⟩
  setDepth h _ := ⟨h.of_eq rfl rfl rfl rfl, h.cursor, h.flow⟩
  setFunctions h _ := ⟨h.of_eq rfl rfl rfl rfl, h.cursor, h.flow⟩
  setConsole h _ _ := ⟨h.of_eq rfl rfl rfl rfl, h.cursor, h.flow⟩
  read := by
    intro m h
    unfold readData DataPool.read?
    cases hitem : m.data.items[m.data.next]? with
    | none => exact h
    | some v =>
      have hnext : m.data.next + 1 ≤ m.data.items.size := (Array.getElem?_eq_some_iff.mp hitem).1
      exact ⟨h.setNext hnext, h.cursor, h.flow⟩

/-- The machine is ready and calls no user function. -/
def ReadyAtTop (p : Program) (c : Position) (m : Machine) : Prop := m.Ready p c ∧ m.depth = 0

/-- Quiet actions leave the machine ready. -/
theorem Quiet.ensures {x : Action Machine α} (hx : Quiet x) :
    Ensures (ReadyAtTop p c) x fun _ => ReadyAtTop p c := by
  rintro m a m' ⟨hready, hdepth⟩ heq
  obtain ⟨hready', hdepth'⟩ := hx _ (insensitive_ready p c) m hready
  rw [heq] at hready' hdepth'
  exact ⟨hready', hdepth'.trans hdepth⟩

section Requests

variable {line : Line} {s : Statement}

/-- The search for a line finds one of the program. -/
theorem findLine_ensures (n : LineNumber) :
    Ensures (ReadyAtTop p c) (findLine n) fun i m => ReadyAtTop p c m ∧ i < p.lines.length := by
  intro m i m' hm heq
  unfold findLine at heq
  split at heq <;> cases heq
  case h_1 hindex => exact ⟨hm, Program.lt_of_indexOf? (hm.1.program ▸ hindex)⟩

/-- GOTO leads to a line of the program. -/
theorem goto_ensures (n : LineNumber) : Ensures (ReadyAtTop p c) (goto n) fun _ => After p c := by
  refine (findLine_ensures n).bind fun i => Ensures.modify fun m ⟨⟨hready, hdepth⟩, hi⟩ => ?_
  exact hready.after_jumpTo (Program.within_line (Nat.le_of_lt hi)) hdepth

/-- So does GOSUB, which remembers where it came from. -/
theorem gosub_ensures (hat : p.at? c = some (line, s)) (n : LineNumber) :
    Ensures (ReadyAtTop p c) (gosub n) fun _ => After p c := by
  refine (findLine_ensures n).bind fun i => ?_
  rintro m _ m' ⟨⟨hready, hdepth⟩, hi⟩ heq
  unfold enterSubroutine at heq
  split at heq <;> cases heq
  case h_1 returns hpush =>
    have hline : c.line < p.lines.length :=
      (List.getElem?_eq_some_iff.mp (Program.at?_eq_some_iff.mp hat).1).1
    have hcontexts : Contexts p { m with returns } :=
      { hready with
        returns_le := Stack.size_le_of_push hpush
        returns_mem := by
          rw [Stack.items_of_push hpush, List.forall_mem_cons, hready.cursor]
          exact ⟨⟨Nat.le_add_left 1 _, hline⟩, hready.returns_mem⟩ }
    exact hcontexts.after_jumpTo (Program.within_line (Nat.le_of_lt hi)) hdepth

/-- RETURN leads back to such a place. -/
theorem comeBack_ensures : Ensures (ReadyAtTop p c) comeBack fun _ => After p c := by
  rintro m _ m' ⟨hready, hdepth⟩ heq
  unfold comeBack Stack.pop? at heq
  cases hitems : m.returns.items with
  | nil =>
    rw [hitems] at heq
    cases heq
  | cons i rest =>
    rw [hitems] at heq
    cases heq
    have hmem := hready.returns_mem
    rw [hitems, List.forall_mem_cons] at hmem
    have hsize := hready.returns_le
    rw [Stack.size, hitems] at hsize
    have hcontexts : Contexts p { m with returns := { m.returns with items := rest } } :=
      { hready with
        returns_le := Nat.le_of_succ_le hsize
        returns_mem := hmem.2 }
    exact hcontexts.after_jumpTo (Program.within_line hmem.1.2) hdepth

/-- END leads nowhere. -/
theorem finish_ensures {P : Machine → Prop} : Ensures P finish fun _ => After p c :=
  Ensures.modify fun _ _ => trivial

/-- RUN leads to a line of the program, with nothing remembered. -/
theorem run_ensures (n : Option LineNumber) :
    Ensures (ReadyAtTop p c) (run n) fun _ => After p c := by
  have hclear (i : Nat) : Ensures (fun m => ReadyAtTop p c m ∧ i < p.lines.length + 1)
      (Action.modify fun m => m.clear.jumpToLine i) fun _ => After p c :=
    Ensures.modify fun m ⟨⟨hready, hdepth⟩, hi⟩ =>
      hready.clear.after_jumpTo (Program.within_line (Nat.le_of_lt_succ hi)) hdepth
  cases n with
  | none =>
    exact (Ensures.pure fun m hm => ⟨hm, Nat.succ_pos _⟩).bind hclear
  | some n =>
    refine (findLine_ensures n).bind fun i m a m' hm heq => ?_
    exact hclear i m a m' ⟨hm.1, Nat.lt_succ_of_lt hm.2⟩ heq

/-- An IF that fails leads to the next line. -/
theorem skipLine_ensures (hat : p.at? c = some (line, s)) :
    Ensures (ReadyAtTop p c) skipLine fun _ => After p c := by
  refine Ensures.modify fun m ⟨hready, hdepth⟩ => hready.after_jumpTo ?_ hdepth
  rw [hready.cursor]
  exact Program.within_line (List.getElem?_eq_some_iff.mp (Program.at?_eq_some_iff.mp hat).1).1

/-- RESTORE leads to an item of the pool. -/
theorem restoreData_ensures (n : Option LineNumber) :
    Ensures (ReadyAtTop p c) (restoreData n) fun _ => After p c := by
  refine Ensures.modify fun m ⟨hready, hdepth⟩ => Ready.after ⟨?_, hready.cursor, hready.flow⟩ hdepth
  cases n with
  | none => exact hready.setNext (Nat.zero_le _)
  | some n =>
    refine hready.setNext ?_
    have hsize : m.data.items.size = p.dataItems.length := by
      rw [hready.pool]
      exact List.size_toArray
    split
    case h_1 i hfind =>
      have hmem := List.mem_of_find?_eq_some hfind
      rw [hready.pool] at hmem
      have hle := DataPool.start_le_of_mem hmem
      rw [Nat.zero_add] at hle
      exact hle.trans_eq hsize.symm
    case h_2 => exact Nat.le_refl _

/-- A loop that resumes behind a FOR over its counter is rooted. -/
theorem rooted_of_at? (hat : p.at? c = some (line, s)) {counter : Name} {a b : Expr}
    {st : Option Expr} (hs : s.stripIfs = .loop counter a b st) {l : Loop}
    (hstep : (l.step == 0) = false) (hcounter : l.counter = counter.fold)
    (hresume : l.resume = c.next) : l.Rooted p := by
  obtain ⟨hline, hget⟩ := Program.at?_eq_some_iff.mp hat
  have hlt := (List.getElem?_eq_some_iff.mp hget).1
  refine ⟨hstep, line, ?_⟩
  rw [hresume]
  exact ⟨hline, Nat.le_add_left 1 _, hlt, s, counter, a, b, st, hget, hs, hcounter.symm⟩

/-- FOR leaves the loop over its counter before it starts one, so that counters stay distinct. -/
theorem beginLoop_ensures (hat : p.at? c = some (line, s)) {counter : Name} {a b : Expr}
    {st : Option Expr} (hs : s.stripIfs = .loop counter a b st) (start limit step : Float) :
    Ensures (ReadyAtTop p c) (beginLoop counter start limit step) fun _ => After p c := by
  rintro m _ m' ⟨hready, hdepth⟩ heq
  rw [beginLoop_eq] at heq
  split at heq
  · cases heq
  case isFalse hstep =>
    split at heq
    · cases heq
    case h_2 memory hstore =>
      have hsub := Loop.around_sublist counter.fold m.loops.items
      have hleft : (m.outsideLoop counter memory).Ready p c :=
        ⟨(hready.setLoops hsub).of_eq rfl rfl rfl rfl, hready.cursor, hready.flow⟩
      have hnew := Loop.counter_notMem_around counter.fold hready.counters_nodup
      unfold enterLoop at heq
      rw [hleft.cursor] at heq
      dsimp only at heq
      split at heq
      · split at heq <;> cases heq
        case h_1 loops hpush =>
          have hrooted := rooted_of_at? hat hs (l := ⟨counter.fold, limit, step, c.next⟩)
            (by simpa using hstep) rfl rfl
          have hpushed := hleft.pushLoop hrooted hnew hpush
          exact Ready.after ⟨hpushed.of_eq rfl rfl rfl rfl, rfl, hleft.flow⟩ hdepth
      · split at heq <;> cases heq
        case h_1 exit hexit =>
          rw [hleft.program] at hexit
          exact hleft.after_jumpTo (Program.within_of_loopExit? hexit) hdepth

/-- NEXT goes back behind the FOR that its loop is rooted in, or leaves the loop. -/
theorem nextLoop_ensures (counter : Option Name) :
    Ensures (ReadyAtTop p c) (nextLoop counter) fun _ => After p c := by
  rintro m _ m' ⟨hready, hdepth⟩ heq
  rw [nextLoop_eq] at heq
  have hsub := Loop.steppedBy_sublist counter m.loops.items
  cases hstepped : Loop.steppedBy counter m.loops.items with
  | nil =>
    rw [hstepped] at heq
    cases heq
  | cons l outer =>
    rw [hstepped] at heq hsub
    dsimp only at heq
    rw [stepLoop_eq rfl] at heq
    have hkept (memory : Memory) :
        Contexts p { m with memory, loops := { m.loops with items := l :: outer } } :=
      (hready.setLoops hsub).of_eq rfl rfl rfl rfl
    have hwithin : p.Within l.resume := by
      obtain ⟨line, hline, -, hle, -⟩ := ((hkept m.memory).rooted l List.mem_cons_self).resume
      refine ⟨Nat.le_of_lt (List.getElem?_eq_some_iff.mp hline).1, fun line' hline' => ?_⟩
      obtain rfl := Option.some.inj (hline.symm.trans hline')
      exact hle
    split at heq
    · cases heq
    · split at heq
      · split at heq <;> cases heq
        exact (hkept _).after_jumpTo hwithin hdepth
      · cases heq
        have houter := hready.setLoops ((List.sublist_cons_self l outer).trans hsub)
        exact Ready.after ⟨houter, hready.cursor, hready.flow⟩ hdepth

/-- STOP leads nowhere. -/
theorem stop_ensures : Ensures (ReadyAtTop p c) stop fun _ => After p c := by
  have hprint : Ensures (ReadyAtTop p c)
      (fun m => onConsole (Console.printLine m.stopMessage) m) fun _ _ => True :=
    fun _ _ _ _ _ => trivial
  exact hprint.bind fun _ => finish_ensures

/-- A jump of either kind leads to a line of the program. -/
theorem jump_ensures (hat : p.at? c = some (line, s)) (j : Jump) (n : LineNumber) :
    Ensures (ReadyAtTop p c) (perform .done (.jump j n)) fun _ => After p c := by
  cases j with
  | goto => exact goto_ensures n
  | gosub => exact gosub_ensures hat n

end Requests

/-- A statement leaves a ready machine sound, unless it fails or ends the program. The statement at
the cursor may stand under IFs, which the induction strips. -/
theorem exec_ensures {line : Line} {s₀ : Statement} (hat : p.at? c = some (line, s₀)) (s : Statement)
    (hs : s₀.stripIfs = s.stripIfs) (patience : Nat) :
    Ensures (ReadyAtTop p c) (s.exec perform patience) fun _ => After p c := by
  have hquiet {s : Statement} (hsimple : s.isSimple = true) :
      Ensures (ReadyAtTop p c) (s.exec perform patience) fun _ => After p c := by
    intro m a m' hm heq
    obtain ⟨hready, hdepth⟩ := (Quiet.exec hsimple patience).ensures m a m' hm heq
    exact hready.after hdepth
  induction s with
  | assign | data | define | dimension | input | print | read => exact hquiet rfl
  | finish => exact finish_ensures
  | loop counter start limit step =>
    refine (Quiet.evalNumber start).ensures.bind fun x =>
      (Quiet.evalNumber limit).ensures.bind fun y => ?_
    cases step with
    | none =>
      simp only [pure_bind]
      exact beginLoop_ensures hat hs x y 1
    | some e => exact (Quiet.evalNumber e).ensures.bind (beginLoop_ensures hat hs x y)
  | jump j n => exact jump_ensures hat j n
  | ifThen condition s ih =>
    refine (Quiet.eval condition).ensures.bind fun v => ?_
    split
    · exact ih hs
    · exact skipLine_ensures hat
  | next counter => exact nextLoop_ensures counter
  | on selector j lines =>
    refine (Quiet.evalNumber selector).ensures.bind fun x =>
      (Quiet.ofExcept (Statement.chosen x lines)).ensures.bind fun chosen => ?_
    cases chosen with
    | none => exact Ensures.pure fun m ⟨hready, hdepth⟩ => hready.after hdepth
    | some n => exact jump_ensures hat j n
  | remark => exact Ensures.pure fun m ⟨hready, hdepth⟩ => hready.after hdepth
  | restore n => exact restoreData_ensures n
  | comeBack => exact comeBack_ensures
  | run n => exact run_ensures n
  | stop => exact stop_ensures

/-- A property of the machine, as long as the program is not over. -/
def Progress.WhileRunning (P : Machine → Prop) : Progress → Prop
  | running m => P m
  | finished _ _ => True

/-- One round: the cursor passes on to the next line if there are no statements left on its own, and
else a statement is carried out. -/
def round (m : Machine) : Progress :=
  match m.program.lines[m.cursor.line]? with
  | none => .finished (.ok ()) m
  | some line =>
    match line.statements[m.cursor.statement]? with
    | none => .running { m with cursor := { line := m.cursor.line + 1 } }
    | some s =>
      match step s m with
      | (.ok (), m) => m.proceed
      | (.error e, m) => .finished (.error (e.inLine line.number)) m

/-- At most `n` rounds. -/
def rounds : Nat → Machine → Progress
  | 0, m => .running m
  | n + 1, m =>
    match m.round with
    | .running m => rounds n m
    | .finished result m => .finished result m

/-- A round that goes on is followed by the others. -/
theorem rounds_of_round {m' : Machine} (h : m.round = .running m') (n : Nat) :
    m.rounds (n + 1) = m'.rounds n := by
  rw [rounds, h]

/-- A turn is the rounds up to the first statement and the round that carries it out. The recursion
is on the lines that are left. -/
theorem turn_eq_rounds (m : Machine) : ∃ k, m.turn = m.rounds (k + 1) := by
  cases hline : m.program.lines[m.cursor.line]? with
  | none =>
    have hsettle : m.settle = m := by rw [settle, Program.settle_of_line_none hline]
    have hat : m.program.at? m.cursor = none := by simp [Program.at?, hline]
    refine ⟨0, ?_⟩
    simp only [turn, hsettle, hat, rounds, round, hline]
  | some line =>
    cases hget : line.statements[m.cursor.statement]? with
    | some s =>
      have hat := Program.at?_eq_some_iff.mpr ⟨hline, hget⟩
      have hsettle : m.settle = m := by rw [settle, Program.settle_of_at? hat]
      refine ⟨0, ?_⟩
      simp only [turn, hsettle, hat, rounds, round, hline, hget]
      rcases step s m with ⟨_ | ⟨⟨⟩⟩, m'⟩
      · rfl
      · dsimp only
        cases m'.proceed <;> rfl
    | none =>
      have hlt := (List.getElem?_eq_some_iff.mp hline).1
      obtain ⟨k, hk⟩ := turn_eq_rounds { m with cursor := { line := m.cursor.line + 1 } }
      have hsettle : m.settle = settle { m with cursor := { line := m.cursor.line + 1 } } := by
        rw [settle, settle, Program.settle_of_statement_none hline hget]
      have hround : m.round = .running { m with cursor := { line := m.cursor.line + 1 } } := by
        simp only [round, hline, hget]
      refine ⟨k + 1, ?_⟩
      calc m.turn = turn { m with cursor := { line := m.cursor.line + 1 } } := by
            rw [turn, turn, hsettle]
        _ = m.rounds (k + 1 + 1) := by
            rw [hk, rounds_of_round hround]
termination_by m.program.lines.length - m.cursor.line

/-- Rounds may be counted in two parts. -/
theorem rounds_add (n k : Nat) (m : Machine) :
    rounds (n + k) m = match rounds n m with
      | .running m => rounds k m
      | .finished result m => .finished result m := by
  induction n generalizing m with
  | zero => simp [rounds]
  | succ n ih =>
    rw [Nat.add_right_comm, rounds, rounds]
    cases m.round with
    | running m => exact ih m
    | finished => rfl

/-- A run is made of rounds. -/
theorem runFor_eq_rounds (turns : Nat) (m : Machine) : ∃ n, m.runFor turns = m.rounds n := by
  induction turns generalizing m with
  | zero => exact ⟨0, rfl⟩
  | succ turns ih =>
    obtain ⟨k, hturn⟩ := turn_eq_rounds m
    rw [runFor, hturn]
    cases hrounds : m.rounds (k + 1) with
    | running m' =>
      obtain ⟨n, hn⟩ := ih m'
      refine ⟨k + 1 + n, ?_⟩
      rw [rounds_add, hrounds]
      exact hn
    | finished result m' => exact ⟨k + 1, hrounds.symm⟩

/-- What comes after a statement is sound. -/
theorem After.proceed (h : m.After p c) (hnext : p.Within c.next) :
    m.proceed.WhileRunning (Sound p) := by
  unfold After at h
  unfold Machine.proceed
  cases hflow : m.flow with
  | advance =>
    rw [hflow] at h
    obtain ⟨hready, hdepth⟩ := h
    exact ⟨hready.of_eq rfl rfl rfl rfl, hready.cursor ▸ hnext, rfl, hdepth⟩
  | jumped =>
    rw [hflow] at h
    obtain ⟨hcontexts, hwithin, hdepth⟩ := h
    exact ⟨hcontexts.of_eq rfl rfl rfl rfl, hwithin, rfl, hdepth⟩
  | halted => trivial

/-- Counting a statement leaves the machine ready. -/
theorem beginStep_ensures : Ensures (ReadyAtTop p c) beginStep fun _ => ReadyAtTop p c := by
  rintro m _ m' ⟨hready, hdepth⟩ heq
  unfold beginStep at heq
  split at heq
  · cases heq
  · dsimp only at heq
    split at heq <;> cases heq
    exact ⟨⟨hready.of_eq rfl rfl rfl rfl, hready.cursor, hready.flow⟩, hdepth⟩

/-- One round leads from sound machines to sound machines. -/
theorem round_sound (h : m.Sound p) : m.round.WhileRunning (Sound p) := by
  unfold round
  rw [h.program]
  cases hline : p.lines[m.cursor.line]? with
  | none => trivial
  | some line =>
    have hlt := (List.getElem?_eq_some_iff.mp hline).1
    dsimp only
    cases hget : line.statements[m.cursor.statement]? with
    | none =>
      exact ⟨h.of_eq h.program.symm rfl rfl rfl, Program.within_line hlt, h.flow, h.depth⟩
    | some s =>
      have hat := Program.at?_eq_some_iff.mpr ⟨hline, hget⟩
      dsimp only
      rcases hstep : step s m with ⟨_ | ⟨⟨⟩⟩, m'⟩
      · trivial
      · have hensures : Ensures (ReadyAtTop p m.cursor) (step s) fun _ => After p m.cursor :=
          beginStep_ensures.bind fun _ m₁ a m₂ hm₁ heq =>
            exec_ensures hat s rfl m₁.patience m₁ a m₂ hm₁ heq
        have hafter := hensures m () m' ⟨⟨h.toContexts, rfl, h.flow⟩, h.depth⟩ hstep
        exact hafter.proceed (Program.within_of_at? hat).2

/-- Any number of rounds leads from sound machines to sound machines. -/
theorem rounds_sound (n : Nat) (h : m.Sound p) : (m.rounds n).WhileRunning (Sound p) := by
  induction n generalizing m with
  | zero => exact h
  | succ n ih =>
    have hround := round_sound h
    rw [rounds]
    cases hm : m.round with
    | running m' =>
      rw [hm] at hround
      exact ih hround
    | finished => trivial

/-- A run of a program leads to sound machines. -/
theorem sound_of_execute {m' : Machine} {turns : Nat} (h : m.execute p turns = .running m') :
    m'.Sound p := by
  obtain ⟨n, hrounds⟩ := runFor_eq_rounds turns (m.load p)
  have hsound := rounds_sound n (sound_load m p)
  rw [← hrounds, ← execute, h] at hsound
  exact hsound

/-- Whatever the program and the machine that runs it, the machine is sound before every round, and
a run of any number of turns is made of rounds. -/
theorem execute_sound (m : Machine) (p : Program) :
    (∀ n, ((m.load p).rounds n).WhileRunning (Sound p)) ∧
      ∀ turns, ∃ n, m.execute p turns = (m.load p).rounds n :=
  ⟨fun n => rounds_sound n (sound_load m p), fun turns => runFor_eq_rounds turns (m.load p)⟩

end Machine

end CommodoreBasic
