import CommodoreBasic.Proofs.Subroutines

/-!
# Failed jumps

GOTO, GOSUB, RETURN, RUN, NEXT and FOR look whether they can do what they are asked before they change
anything. RUN forgets the variables only once its line has been found, GOSUB remembers where it was only
once it knows where to go, and NEXT leaves inner loops only if there is a loop to step. So a machine that
could not jump is as it was, and the program that is run next finds its variables. STOP prints first and
halts then, so that a console that fails leaves the program running.

A line is found by its number if there is one, and of two lines with one number the first is taken.
-/

namespace CommodoreBasic

open CommodoreBasic.Action

namespace Program

/-- The line with index `i` is the first one with the number `n`. -/
def FirstWith (p : Program) (n : LineNumber) (i : Nat) : Prop :=
  (∃ line, p.lines[i]? = some line ∧ line.number = n) ∧
    ∀ j < i, ∀ line, p.lines[j]? = some line → line.number ≠ n

variable {p : Program} {n : LineNumber} {i : Nat}

/-- No line has the number exactly if none is found. -/
theorem indexOf?_eq_none_iff : p.indexOf? n = none ↔ ∀ line ∈ p.lines, line.number ≠ n := by
  rw [indexOf?, List.findIdx?_eq_none_iff]
  simp only [beq_eq_false_iff_ne]

/-- The line that is found is the first with its number. -/
theorem firstWith_of_indexOf? (h : p.indexOf? n = some i) : p.FirstWith n i := by
  obtain ⟨hi, hnumber, hbefore⟩ := List.findIdx?_eq_some_iff_getElem.mp h
  refine ⟨⟨p.lines[i], List.getElem?_eq_getElem hi, beq_iff_eq.mp hnumber⟩, fun j hj line hline => ?_⟩
  obtain ⟨hj', rfl⟩ := List.getElem?_eq_some_iff.mp hline
  simpa using hbefore j hj

end Program

namespace Request

/-- The line that a request goes to by its number. -/
def target? {a : Answer} : Request a → Option LineNumber
  | .jump _ n => some n
  | .run line => line
  | _ => none

/-- The request is to go somewhere else, and `k` is an error that it looks for before it goes. -/
def Rejects {a : Answer} : Request a → ErrorKind → Prop
  | .jump .., _ | .comeBack, _ | .run _, _ => True
  | .nextLoop _, k => k = .nextWithoutFor
  | .beginLoop .., k => k = .illegalQuantity
  | _, _ => False

end Request

/-- What storing a value can be refused for. -/
theorem Memory.store_error_kind {n : Name} {v : Value} {m m' : Memory} {e : Error}
    (h : store n v m = (.error e, m')) :
    e.kind = .syntaxError ∨ e.kind = .typeMismatch ∨ e.kind = .outOfMemory := by
  unfold store at h
  dsimp only at h
  split at h
  · cases h
    exact .inl rfl
  split at h
  · cases h
    exact .inr (.inl rfl)
  split at h
  · cases h
    exact .inr (.inr rfl)
  · cases h

namespace Machine

variable {m m' : Machine} {n : LineNumber} {i : Nat} {e : Error}

/-! ## Lines found by their numbers -/

/-- A jump to a line that is not there fails and changes nothing. -/
theorem findLine_of_none (h : m.program.indexOf? n = none) :
    findLine n m = (raise .undefinedStatement, m) := by
  unfold findLine
  rw [h]

/-- A jump to a line that is there finds it. -/
theorem findLine_of_some (h : m.program.indexOf? n = some i) : findLine n m = (.ok i, m) := by
  unfold findLine
  rw [h]

/-- A request for a line that there is not is refused. -/
theorem perform_of_undefined {r : Request .done} (hr : r.target? = some n)
    (h : m.program.indexOf? n = none) : perform .done r m = (raise .undefinedStatement, m) := by
  have hfind := findLine_of_none h
  cases r with
  | jump j l =>
    cases hr
    cases j with
    | goto => exact bind_of_error hfind
    | gosub => exact bind_of_error hfind
  | run line =>
    cases hr
    exact bind_of_error hfind
  | _ => cases hr

/-- A request for a line that there is goes to the first one with the number, unless it is for a
subroutine and there are too many. -/
theorem perform_of_defined {r : Request .done} (hr : r.target? = some n)
    (h : m.program.indexOf? n = some i) :
    (∃ m', perform .done r m = (.ok (), m') ∧ m'.cursor = { line := i } ∧ m'.flow = .jumped) ∨
      perform .done r m = (raise .stackOverflow, m) := by
  have hfind := findLine_of_some h
  cases r with
  | jump j l =>
    cases hr
    cases j with
    | goto => exact .inl ⟨_, bind_of_ok hfind, rfl, rfl⟩
    | gosub =>
      have hgosub : perform .done (.jump .gosub n) m = enterSubroutine i m := bind_of_ok hfind
      rw [hgosub, enterSubroutine]
      by_cases hroom : m.returns.size < m.returns.limit
      · exact .inl ⟨_, by rw [Stack.push, if_pos hroom], rfl, rfl⟩
      · exact .inr (by rw [Stack.push, if_neg hroom]; rfl)
  | run line =>
    cases hr
    exact .inl ⟨_, bind_of_ok hfind, rfl, rfl⟩
  | _ => cases hr

/-! ## Loops found by their counters -/

/-- NEXT steps a loop of its own counter, or the innermost if it names none. -/
theorem steppedBy_eq_nil_iff (n : Name) (loops : List Loop) :
    Loop.steppedBy (some n) loops = [] ↔ ∀ l ∈ loops, l.counter ≠ n.fold := by
  rw [Loop.steppedBy, List.dropWhile_eq_nil_iff]
  simp only [bne_iff_ne]

/-- A loop that was found cannot be missing. -/
theorem stepLoop_error {l : Loop} {outer : List Loop} (hloops : m.loops.items = l :: outer)
    (h : stepLoop l m = (.error e, m')) : e.kind ≠ .nextWithoutFor := by
  rw [stepLoop_eq hloops] at h
  split at h
  · cases h
    decide
  split at h
  case isFalse => cases h
  split at h
  case h_2 => cases h
  case h_1 e' memory hstore =>
    cases h
    obtain hkind | hkind | hkind := Memory.store_error_kind hstore <;> rw [hkind] <;> decide

/-- NEXT fails exactly if no open loop is its own. -/
theorem nextLoop_error_iff (counter : Option Name) (m : Machine) :
    (∃ e m', nextLoop counter m = (.error e, m') ∧ e.kind = .nextWithoutFor) ↔
      Loop.steppedBy counter m.loops.items = [] := by
  rw [nextLoop_eq]
  cases hstepped : Loop.steppedBy counter m.loops.items with
  | nil => exact ⟨fun _ => rfl, fun _ => ⟨_, _, rfl, rfl⟩⟩
  | cons l outer =>
    constructor
    · rintro ⟨e, m', h, hkind⟩
      exact absurd hkind (stepLoop_error rfl h)
    · intro h
      cases h

/-- Where NEXT fails it changes nothing. -/
theorem nextLoop_of_error {counter : Option Name} (h : nextLoop counter m = (.error e, m'))
    (hkind : e.kind = .nextWithoutFor) : m' = m := by
  have hstepped := (nextLoop_error_iff counter m).mp ⟨e, m', h, hkind⟩
  rw [nextLoop_eq, hstepped] at h
  cases h
  rfl

/-- FOR looks at its step before anything else, and finds no other quantity illegal. -/
theorem beginLoop_of_error {counter : Name} {start limit step : Float}
    (h : beginLoop counter start limit step m = (.error e, m')) (hkind : e.kind = .illegalQuantity) :
    m' = m := by
  rw [beginLoop_eq] at h
  split at h
  · cases h
    rfl
  split at h
  case h_1 e' memory hstore =>
    cases h
    obtain hstored | hstored | hstored := Memory.store_error_kind hstore <;>
      cases hkind.symm.trans hstored
  case h_2 memory hstore =>
    unfold enterLoop Stack.push at h
    dsimp only at h
    split at h <;> split at h <;> cases h
    · next hpush =>
      split at hpush <;> cases hpush
      cases hkind
    · cases hkind

/-! ## Requests that fail -/

/-- A request to go somewhere else that is refused leaves the machine as it was. -/
theorem perform_of_rejects {r : Request .done} (h : perform .done r m = (.error e, m'))
    (hr : r.Rejects e.kind) : m' = m := by
  have hdefined {r : Request .done} {n : LineNumber} (htarget : r.target? = some n)
      (h : perform .done r m = (.error e, m')) : m' = m := by
    cases hindex : m.program.indexOf? n with
    | none =>
      rw [perform_of_undefined htarget hindex] at h
      cases h
      rfl
    | some i =>
      obtain ⟨m'', hgoes, -⟩ | hfull := perform_of_defined htarget hindex
      · cases hgoes.symm.trans h
      · cases hfull.symm.trans h
        rfl
  cases r with
  | jump j n => exact hdefined rfl h
  | comeBack =>
    obtain ⟨-, hcome⟩ | ⟨i, rest, -, hcome⟩ := comeBack_cases m
    · cases hcome.symm.trans h
      rfl
    · cases hcome.symm.trans h
  | run line =>
    cases line with
    | none => cases h
    | some n => exact hdefined rfl h
  | beginLoop counter start limit step => exact beginLoop_of_error h hr
  | nextLoop counter => exact nextLoop_of_error h hr
  | _ => cases hr

/-- Printing fails only if the console does, and then nothing else is changed. -/
theorem printLine_of_error {text : String}
    (h : onConsole (Console.printLine text) m = (.error e, m')) :
    m.console.absent (m.console.calls + 1) = true ∧
      m' = { m with console := m'.console, interrupted := m'.interrupted } := by
  unfold onConsole Console.printLine Console.call at h
  dsimp only at h
  split at h
  case isTrue habsent =>
    cases h
    exact ⟨habsent, rfl⟩
  case isFalse => cases h

/-- So STOP fails only if the console does, and before it halts the program. -/
theorem stop_of_error (h : perform .done .stop m = (.error e, m')) :
    m.console.absent (m.console.calls + 1) = true ∧
      m' = { m with console := m'.console, interrupted := m'.interrupted } := by
  rcases hprint : onConsole (Console.printLine m.stopMessage) m with ⟨e' | ⟨⟨⟩⟩, m''⟩
  · have hstop : perform .done .stop m = (.error e', m'') := bind_of_error hprint
    cases hstop.symm.trans h
    exact printLine_of_error hprint
  · have hstop : perform .done .stop m = finish m'' := bind_of_ok hprint
    cases hstop.symm.trans h

/-- A jump that fails changes nothing. After GOTO, GOSUB, RETURN or RUN has failed, or NEXT because there
is no loop for it, or FOR because of its step, the machine is as before; after STOP has failed, which
happens only if the console does, it is as before but for what the console was told and whether BREAK was
pressed meanwhile. A jump to a line fails because there is no such line exactly if there is none in the
program, and if it does not fail it goes to the start of the first line with that number. NEXT finds no
loop exactly if none has its counter, or, if it names no counter, if there is no loop. -/
theorem perform_failedJump (m : Machine) :
    (∀ (r : Request .done) (e : Error) (m' : Machine), perform .done r m = (.error e, m') →
      r.Rejects e.kind → m' = m) ∧
    (∀ (e : Error) (m' : Machine), perform .done .stop m = (.error e, m') →
      m.console.absent (m.console.calls + 1) = true ∧
        m' = { m with console := m'.console, interrupted := m'.interrupted }) ∧
    (∀ (r : Request .done) (n : LineNumber), r.target? = some n →
      ((∃ e m', perform .done r m = (.error e, m') ∧ e.kind = .undefinedStatement) ↔
        ∀ line ∈ m.program.lines, line.number ≠ n) ∧
      ∀ m', perform .done r m = (.ok (), m') →
        ∃ i, m.program.FirstWith n i ∧ m'.cursor = { line := i, statement := 0 } ∧
          m'.flow = .jumped) ∧
    (∀ n : Name, (∃ e m', perform .done (.nextLoop (some n)) m = (.error e, m') ∧
        e.kind = .nextWithoutFor) ↔ ∀ l ∈ m.loops.items, l.counter ≠ n.fold) ∧
    ((∃ e m', perform .done (.nextLoop none) m = (.error e, m') ∧ e.kind = .nextWithoutFor) ↔
      m.loops.items = []) := by
  refine ⟨fun r e m' => perform_of_rejects, fun e m' => stop_of_error, fun r n htarget => ?_,
    fun n => ?_, nextLoop_error_iff none m⟩
  · rw [← Program.indexOf?_eq_none_iff]
    cases hindex : m.program.indexOf? n with
    | none =>
      have hfails := perform_of_undefined htarget hindex
      refine ⟨⟨fun _ => rfl, fun _ => ⟨_, _, hfails, rfl⟩⟩, fun m' h => ?_⟩
      cases hfails.symm.trans h
    | some i =>
      obtain ⟨m'', hgoes, hcursor, hflow⟩ | hfull := perform_of_defined htarget hindex
      · refine ⟨⟨?_, fun h => by cases h⟩, fun m' h => ?_⟩
        · rintro ⟨e, m', h, -⟩
          cases hgoes.symm.trans h
        · cases hgoes.symm.trans h
          exact ⟨i, Program.firstWith_of_indexOf? hindex, hcursor, hflow⟩
      · refine ⟨⟨?_, fun h => by cases h⟩, fun m' h => ?_⟩
        · rintro ⟨e, m', h, hkind⟩
          cases hfull.symm.trans h
          cases hkind
        · cases hfull.symm.trans h
  · rw [← steppedBy_eq_nil_iff]
    exact nextLoop_error_iff (some n) m

/-- Two lines have the number 30, and none the number 99. -/
def twinLines : Program where
  lines := [
    { number := 10, statements := [.jump .gosub 30] },
    { number := 30, statements := [.run (some 99)] },
    { number := 30, statements := [.next (some "J")] }]

/-- In the subroutine RUN fails and leaves the line to come back to, a second GOSUB is one too many, and
GOTO goes to the first of two lines. -/
theorem perform_failedJump_twinLines :
    let m := ((new {} 0 1).execute twinLines 1).machine
    m.returns.items = [1] ∧ (perform .done (.run (some 99)) m).2 = m ∧
      (perform .done (.jump .gosub 30) m).2 = m ∧
      twinLines.FirstWith 30 (perform .done (.jump .goto 30) m).2.cursor.line := by
  intro m
  have hrun : perform .done (.run (some 99)) m = (raise .undefinedStatement, _) := rfl
  have hgosub : perform .done (.jump .gosub 30) m = (raise .stackOverflow, _) := rfl
  have hgoto : perform .done (.jump .goto 30) m = (.ok (), _) := rfl
  obtain ⟨hfailed, -, hfound, -⟩ := perform_failedJump m
  refine ⟨rfl, hfailed _ _ _ hrun trivial, hfailed _ _ _ hgosub trivial, ?_⟩
  obtain ⟨i, hfirst, hcursor, -⟩ := (hfound (.jump .goto 30) 30 rfl).2 _ hgoto
  rw [hgoto, hcursor]
  exact hfirst

end Machine

end CommodoreBasic
