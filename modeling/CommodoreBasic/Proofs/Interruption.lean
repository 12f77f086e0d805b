import CommodoreBasic.Proofs.DataReading

/-!
# BREAK

The BREAK key is pressed while the console is being called, which statements do in their midst, and
it is looked for between two statements. A run is compared with the calm one, in which nobody presses
the key. Up to the statement during which it is pressed for the first time, and to the end of that
statement, both are the same run, since no statement can notice that the key is down. If the statement
fails or ends the program, the key comes too late. Otherwise the calm run goes on to a next statement,
wherever that is, and the other run is over before it, in the line of that statement.

The number of the call during which the key is pressed says which statement that is, as the calls of
both runs are counted alike.
-/

namespace CommodoreBasic

open CommodoreBasic.Action

/-- BREAK is pressed during one of the calls after the first `i` and up to the `j`th. -/
def pressed (keys : Nat → Bool) (i j : Nat) : Bool := (List.range' (i + 1) (j - i)).any keys

section Pressed

variable {keys : Nat → Bool} {i j k : Nat}

/-- The key was pressed between two calls exactly if it was at one of them. -/
theorem pressed_iff : pressed keys i j = true ↔ ∃ c, i < c ∧ c ≤ j ∧ keys c = true := by
  rw [pressed, List.any_eq_true]
  refine exists_congr fun c => ?_
  rw [List.mem_range'_1, ← and_assoc]
  exact and_congr_left fun _ => by omega

/-- It was not pressed exactly if it was at none of them. -/
theorem pressed_eq_false_iff :
    pressed keys i j = false ↔ ∀ c, i < c → c ≤ j → keys c = false := by
  rw [← Bool.not_eq_true, pressed_iff]
  simp only [not_exists, not_and, Bool.not_eq_true]

/-- Between a call and itself there is no other. -/
theorem pressed_self (keys : Nat → Bool) (i : Nat) : pressed keys i i = false := by
  rw [pressed, Nat.sub_self]
  rfl

/-- One call more. -/
theorem pressed_succ (h : i ≤ j) : pressed keys i (j + 1) = (pressed keys i j || keys (j + 1)) := by
  have hlength : j + 1 - i = j - i + 1 := by omega
  have hlast : i + 1 + (j - i) = j + 1 := by omega
  rw [pressed, pressed, hlength, List.range'_1_concat, List.any_append, hlast, List.any_cons,
    List.any_nil, Bool.or_false]

/-- A key that was pressed late was pressed. -/
theorem pressed_of_pressed (h : i ≤ j) (hpressed : pressed keys j k = true) :
    pressed keys i k = true := by
  obtain ⟨c, hc, hk, hkey⟩ := pressed_iff.mp hpressed
  exact pressed_iff.mpr ⟨c, h.trans_lt hc, hk, hkey⟩

end Pressed

namespace Machine

variable {α β : Type} {keys : Nat → Bool} {i : Nat} {b : Bool} {m s t : Machine}

/-- The machine with other times at which BREAK is pressed, and with the key down or not. -/
def withKeys (m : Machine) (keys : Nat → Bool) (interrupted : Bool) : Machine :=
  { m with console := { m.console with pressesBreak := keys }, interrupted }

/-- The same for a machine that is running or has finished. -/
def Progress.withKeys (keys : Nat → Bool) (interrupted : Bool) : Progress → Progress
  | running m => running (m.withKeys keys interrupted)
  | finished result m => finished result (m.withKeys keys interrupted)

/-- The machine at a console where nobody presses BREAK. -/
def calmed (m : Machine) : Machine := m.withKeys (fun _ => false) false

/-- Nobody presses BREAK. -/
structure Calm (m : Machine) : Prop where
  interrupted : m.interrupted = false
  keys : m.console.pressesBreak = fun _ => false

/-- The second machine does what the calm first one does, but that BREAK is pressed during some calls:
it has been since call `i` if one of these was among them. -/
def UnderKeys (keys : Nat → Bool) (i : Nat) (s t : Machine) : Prop :=
  s.Calm ∧ i ≤ s.console.calls ∧ t = s.withKeys keys (pressed keys i s.console.calls)

/-! ## Statements -/

/-- A call of the console is made with and without the key alike. -/
theorem underKeys_console (act : List Reply → Event × Except Error α × List Reply) :
    Agree (UnderKeys keys i) (onConsole (Console.call act)) (onConsole (Console.call act)) := by
  rintro s _ ⟨⟨hinterrupted, hkeys⟩, hle, rfl⟩
  unfold onConsole Console.call withKeys
  dsimp only
  rw [hkeys, hinterrupted, ← pressed_succ hle]
  split
  · exact ⟨rfl, ⟨rfl, rfl⟩, hle.trans (Nat.le_succ _), rfl⟩
  · exact ⟨rfl, ⟨rfl, rfl⟩, hle.trans (Nat.le_succ _), rfl⟩

/-- Machines that differ only in the key agree on every evaluation and every simple request. -/
theorem underKeys_fullCoupling : FullCoupling Eq id (UnderKeys keys i) where
  congruence := Memory.Congruence.eq
  respelling := Name.Respelling.id
  memory := by rintro s _ ⟨-, -, rfl⟩; rfl
  random := by rintro s _ ⟨-, -, rfl⟩; rfl
  depth := by rintro s _ ⟨-, -, rfl⟩; rfl
  limit := by rintro s _ ⟨-, -, rfl⟩; rfl
  functions := by
    rintro s _ ⟨-, -, rfl⟩ f
    exact UserFunction.Respelled.rel_self s.functions[f]?
  setMemory := by
    rintro s _ ⟨⟨hinterrupted, hkeys⟩, hle, rfl⟩ memory _ rfl
    exact ⟨⟨hinterrupted, hkeys⟩, hle, rfl⟩
  setRandom := by
    rintro s _ ⟨⟨hinterrupted, hkeys⟩, hle, rfl⟩ random
    exact ⟨⟨hinterrupted, hkeys⟩, hle, rfl⟩
  setDepth := by
    rintro s _ ⟨⟨hinterrupted, hkeys⟩, hle, rfl⟩ depth
    exact ⟨⟨hinterrupted, hkeys⟩, hle, rfl⟩
  console := underKeys_console
  read := by
    rintro s _ ⟨⟨hinterrupted, hkeys⟩, hle, rfl⟩
    unfold readData withKeys
    dsimp only
    split <;> exact ⟨rfl, ⟨hinterrupted, hkeys⟩, hle, rfl⟩
  define := by
    rintro f parameter body s _ ⟨⟨hinterrupted, hkeys⟩, hle, rfl⟩
    rw [Expr.rename_id]
    exact ⟨rfl, ⟨hinterrupted, hkeys⟩, hle, rfl⟩

/-- The action has nothing to do with the console and the key. -/
def Keyless (x : Action Machine α) : Prop :=
  ∀ m : Machine, (x m).2.console = m.console ∧ (x m).2.interrupted = m.interrupted ∧
    ∀ keys b, x (m.withKeys keys b) = ((x m).1, (x m).2.withKeys keys b)

namespace Keyless

/-- An action that does not look at the key does the same on both machines. -/
theorem agree {x : Action Machine α} (hx : Keyless x) : Agree (UnderKeys keys i) x x := by
  rintro s _ ⟨⟨hinterrupted, hkeys⟩, hle, rfl⟩
  obtain ⟨hconsole, hflag, hwith⟩ := hx s
  rw [hwith]
  refine ⟨rfl, ⟨hflag.trans hinterrupted, by rw [hconsole, hkeys]⟩, by rwa [hconsole], ?_⟩
  rw [hconsole]

/-- Sequences of such actions are such. -/
theorem bind {x : Action Machine α} {f : α → Action Machine β} (hx : Keyless x)
    (hf : ∀ a, Keyless (f a)) : Keyless (x >>= f) := by
  intro m
  obtain ⟨hconsole, hflag, hwith⟩ := hx m
  rcases h : x m with ⟨e | a, m'⟩ <;> rw [h] at hconsole hflag hwith
  · refine ⟨by rw [bind_of_error h]; exact hconsole, by rw [bind_of_error h]; exact hflag, ?_⟩
    intro keys b
    rw [bind_of_error h, bind_of_error (hwith keys b)]
  · obtain ⟨hconsole', hflag', hwith'⟩ := hf a m'
    rw [bind_of_ok h]
    refine ⟨hconsole'.trans hconsole, hflag'.trans hflag, fun keys b => ?_⟩
    rw [bind_of_ok (hwith keys b)]
    exact hwith' keys b

/-- So is a change of the machine that leaves the console alone. -/
theorem modify {f : Machine → Machine} (hconsole : ∀ m, (f m).console = m.console)
    (hflag : ∀ m, (f m).interrupted = m.interrupted)
    (hwith : ∀ m keys b, f (m.withKeys keys b) = (f m).withKeys keys b) :
    Keyless (Action.modify f) :=
  fun m => ⟨hconsole m, hflag m, fun keys b => congrArg (Prod.mk _) (hwith m keys b)⟩

/-- RESTORE does not look at the key. -/
theorem restoreData (n : Option LineNumber) : Keyless (restoreData n) :=
  modify (fun _ => rfl) (fun _ => rfl) fun _ _ _ => rfl

/-- Neither does END. -/
theorem finish : Keyless finish := modify (fun _ => rfl) (fun _ => rfl) fun _ _ _ => rfl

/-- Neither does an IF that fails. -/
theorem skipLine : Keyless skipLine := modify (fun _ => rfl) (fun _ => rfl) fun _ _ _ => rfl

/-- Neither does the search for a line. -/
theorem findLine (n : LineNumber) : Keyless (findLine n) := by
  intro m
  unfold Machine.findLine Machine.withKeys
  dsimp only
  split <;> exact ⟨rfl, rfl, fun _ _ => rfl⟩

/-- Neither does GOTO. -/
theorem goto (n : LineNumber) : Keyless (goto n) :=
  (findLine n).bind fun _ => modify (fun _ => rfl) (fun _ => rfl) fun _ _ _ => rfl

/-- Neither does GOSUB. -/
theorem gosub (n : LineNumber) : Keyless (gosub n) := by
  refine (findLine n).bind fun j m => ?_
  unfold enterSubroutine Machine.withKeys
  dsimp only
  split <;> exact ⟨rfl, rfl, fun _ _ => rfl⟩

/-- Neither does RETURN. -/
theorem comeBack : Keyless comeBack := by
  intro m
  unfold Machine.comeBack Machine.withKeys
  dsimp only
  split <;> exact ⟨rfl, rfl, fun _ _ => rfl⟩

/-- Neither does RUN. -/
theorem run (n : Option LineNumber) : Keyless (run n) := by
  have hclear (j : Nat) : Keyless (Action.modify fun m => m.clear.jumpToLine j) :=
    modify (fun _ => rfl) (fun _ => rfl) fun _ _ _ => rfl
  cases n with
  | none => exact hclear 0
  | some n => exact (findLine n).bind hclear

/-- Neither does FOR. -/
theorem beginLoop (counter : Name) (start limit step : Float) :
    Keyless (beginLoop counter start limit step) := by
  intro m
  obtain ⟨memory, loops, cursor, flow, hstate⟩ := beginLoop_state counter start limit step m
  refine ⟨by rw [hstate], by rw [hstate], fun keys b => ?_⟩
  rw [beginLoop_eq, beginLoop_eq]
  split
  · rfl
  · dsimp only [Machine.withKeys]
    split
    · rfl
    · dsimp only [enterLoop, outsideLoop]
      split <;> split <;> rfl

/-- Neither does NEXT. -/
theorem nextLoop (counter : Option Name) : Keyless (nextLoop counter) := by
  intro m
  obtain ⟨memory, loops, cursor, flow, hstate⟩ := nextLoop_state counter m
  refine ⟨by rw [hstate], by rw [hstate], fun keys b => ?_⟩
  have hloops : (m.withKeys keys b).loops = m.loops := rfl
  rw [nextLoop_eq, nextLoop_eq, hloops]
  cases Loop.steppedBy counter m.loops.items with
  | nil => rfl
  | cons l outer =>
    dsimp only
    rw [stepLoop_eq rfl, stepLoop_eq rfl]
    dsimp only [Machine.withKeys]
    split
    · rfl
    · split
      · split <;> rfl
      · rfl

end Keyless

/-- Every request is answered with and without the key alike. -/
theorem underKeys_perform (a : Answer) (r : Request a) :
    Agree (UnderKeys keys i) (perform a r) (perform a r) := by
  cases hsimple : r.isSimple with
  | true =>
    refine agree_of_atDepth fun d => ?_
    have hcoupling : FullCoupling Eq id (UnderKeys keys i) := underKeys_fullCoupling
    have hask := hcoupling.perform_simple d a r hsimple
    rwa [perform_renamed_id] at hask
  | false =>
    cases r with
    | restore n => exact (Keyless.restoreData n).agree
    | jump j n =>
      cases j with
      | goto => exact (Keyless.goto n).agree
      | gosub => exact (Keyless.gosub n).agree
    | comeBack => exact Keyless.comeBack.agree
    | finish => exact Keyless.finish.agree
    | stop =>
      refine Agree.bind ?_ fun _ => Keyless.finish.agree
      intro s t hst
      have hmessage : t.stopMessage = s.stopMessage := by
        obtain ⟨-, -, rfl⟩ := hst
        rfl
      dsimp only
      rw [hmessage]
      exact underKeys_console _ s t hst
    | run n => exact (Keyless.run n).agree
    | skipLine => exact Keyless.skipLine.agree
    | beginLoop counter start limit step =>
      exact (Keyless.beginLoop counter start limit step).agree
    | nextLoop counter => exact (Keyless.nextLoop counter).agree
    | _ => cases hsimple

/-- So is every statement carried out. -/
theorem underKeys_exec (x : Statement) (patience : Nat) :
    Agree (UnderKeys keys i) (x.exec perform patience) (x.exec perform patience) :=
  Statement.exec_agree x patience fun a r _ => underKeys_perform a r

/-! ## Turns and runs -/

/-- A machine without the key is in step with one that has it, up to the next call. -/
theorem Calm.underKeys (hs : s.Calm) (keys : Nat → Bool) :
    UnderKeys keys s.console.calls s (s.withKeys keys false) :=
  ⟨hs, Nat.le_refl _, by rw [pressed_self]⟩

/-- A run that is related to another is that run with the key. -/
theorem eq_withKeys {x y : Progress} (h : Progress.Agree (UnderKeys keys i) x y) :
    x.machine.Calm ∧ i ≤ x.machine.console.calls ∧
      y = x.withKeys keys (pressed keys i x.machine.console.calls) := by
  cases x <;> cases y
  case running.running =>
    obtain ⟨hcalm, hle, rfl⟩ := h
    exact ⟨hcalm, hle, rfl⟩
  case finished.finished =>
    obtain ⟨rfl, hcalm, hle, rfl⟩ := h
    exact ⟨hcalm, hle, rfl⟩
  all_goals cases h

/-- A statement that is counted ends the turn with and without the key alike. -/
theorem UnderKeys.conclude (h : UnderKeys keys i s t) (line : Line) (x : Statement) :
    Progress.Agree (UnderKeys keys i) (conclude line (x.exec perform s.patience s))
      (Machine.conclude line (x.exec perform t.patience t)) := by
  have hpatience : t.patience = s.patience := by
    obtain ⟨-, -, rfl⟩ := h
    rfl
  obtain ⟨hresult, hstate⟩ := underKeys_exec x s.patience s t h
  rw [hpatience]
  generalize x.exec perform s.patience s = y, x.exec perform s.patience t = z at hresult hstate ⊢
  obtain ⟨_ | ⟨⟨⟩⟩, s'⟩ := y <;> obtain ⟨_, t'⟩ := z <;> cases hresult
  · exact ⟨rfl, hstate⟩
  · obtain ⟨⟨hinterrupted, hkeys⟩, hle, rfl⟩ := hstate
    unfold Machine.conclude proceed Machine.withKeys
    dsimp only
    cases hflow : s'.flow
    · exact ⟨⟨hinterrupted, hkeys⟩, hle, rfl⟩
    · exact ⟨⟨hinterrupted, hkeys⟩, hle, rfl⟩
    · exact ⟨rfl, ⟨hinterrupted, hkeys⟩, hle, by rw [Machine.withKeys, hflow]⟩

/-- The clock goes on in both. -/
theorem UnderKeys.advanceClock (h : UnderKeys keys i s t) :
    UnderKeys keys i s.advanceClock t.advanceClock := by
  obtain ⟨⟨hinterrupted, hkeys⟩, hle, rfl⟩ := h
  exact ⟨⟨hinterrupted, hkeys⟩, hle, rfl⟩

/-- A key that has not been pressed yet makes no difference to the turn. -/
theorem UnderKeys.turn (h : UnderKeys keys i s t) (hfree : pressed keys i s.console.calls = false) :
    Progress.Agree (UnderKeys keys i) s.turn t.turn := by
  obtain ⟨hcalm, hle, rfl⟩ := h
  rw [hfree]
  have hfetch : (s.withKeys keys false).fetch? = s.fetch? := by
    unfold fetch?
    rw [hcalm.interrupted]
    rfl
  cases hs : s.fetch? with
  | none =>
    unfold fetch? at hs
    rw [if_neg (by rw [hcalm.interrupted]; exact Bool.false_ne_true)] at hs
    have ht : (s.withKeys keys false).settle.program.at? (s.withKeys keys false).settle.cursor =
        none := hs
    rw [turn_eq, turn_eq, hs, ht]
    refine ⟨rfl, ⟨hcalm.interrupted, hcalm.keys⟩, hle, ?_⟩
    change _ = s.settle.withKeys keys (pressed keys i s.console.calls)
    rw [hfree]
    rfl
  | some fetched =>
    obtain ⟨line, x⟩ := fetched
    have hfetched : UnderKeys keys i { s.settle with steps := s.steps + 1 }
        { (s.withKeys keys false).settle with steps := s.steps + 1 } := by
      refine ⟨⟨hcalm.interrupted, hcalm.keys⟩, hle, ?_⟩
      change _ = Machine.withKeys _ keys (pressed keys i s.console.calls)
      rw [hfree]
      rfl
    rw [turn_of_fetch?_eq_some hs, turn_of_fetch?_eq_some (hfetch.trans hs)]
    change Progress.Agree _ _ (if s.stepLimit.any (· < s.steps + 1) then _ else _)
    split
    · exact ⟨rfl, hfetched⟩
    · exact hfetched.advanceClock.conclude line x

/-- Nobody presses the key in a calm run, and calls of the console are never taken back. -/
theorem Calm.runFor (hs : s.Calm) (n : Nat) :
    (s.runFor n).machine.Calm ∧ s.console.calls ≤ (s.runFor n).machine.console.calls := by
  induction n generalizing s with
  | zero => exact ⟨hs, Nat.le_refl _⟩
  | succ n ih =>
    have hturn := eq_withKeys ((hs.underKeys fun _ => false).turn (pressed_self _ s.console.calls))
    rw [Machine.runFor]
    cases h : s.turn with
    | running u =>
      rw [h] at hturn
      obtain ⟨hcalm, hle⟩ := ih hturn.1
      exact ⟨hcalm, hturn.2.1.trans hle⟩
    | finished result u =>
      rw [h] at hturn
      exact ⟨hturn.1, hturn.2.1⟩

/-- Until the key is pressed a run is calm. -/
theorem UnderKeys.runFor (h : UnderKeys keys i s t) (n : Nat)
    (hfree : pressed keys i (s.runFor n).machine.console.calls = false) :
    Progress.Agree (UnderKeys keys i) (s.runFor n) (t.runFor n) := by
  induction n generalizing s t with
  | zero => exact h
  | succ n ih =>
    have hearlier : pressed keys i s.console.calls = false := by
      have hle := (h.1.runFor (n + 1)).2
      rw [pressed_eq_false_iff] at hfree ⊢
      exact fun c hc hcalls => hfree c hc (hcalls.trans hle)
    have hturn := h.turn hearlier
    rw [Machine.runFor] at hfree ⊢
    rw [Machine.runFor]
    cases hs : s.turn <;> cases ht : t.turn <;> rw [hs, ht] at hturn <;> rw [hs] at hfree
    · exact ih hturn hfree
    · cases hturn
    · cases hturn
    · exact hturn

/-- So is the turn during which it is pressed, to its end. -/
theorem UnderKeys.runFor_succ (h : UnderKeys keys i s t) {k : Nat} {u : Machine}
    (hu : s.runFor k = .running u) (hfree : pressed keys i u.console.calls = false) :
    Progress.Agree (UnderKeys keys i) (s.runFor (k + 1)) (t.runFor (k + 1)) := by
  have hagree := h.runFor k (by rw [hu]; exact hfree)
  rw [hu] at hagree
  cases ht : t.runFor k with
  | running t' =>
    rw [ht] at hagree
    rw [runFor_succ_of_running hu, runFor_succ_of_running ht]
    exact UnderKeys.turn hagree hfree
  | finished result t' =>
    rw [ht] at hagree
    cases hagree

/-- A turn that makes a call of the console carries out the statement that it fetches. -/
theorem turn_of_calls_lt (h : m.console.calls < m.turn.machine.console.calls) :
    ∃ line x, m.fetch? = some (line, x) ∧
      m.turn = Machine.conclude line (x.exec perform m.counted.patience m.counted) := by
  cases hfetch : m.fetch? with
  | none =>
    obtain ⟨result, interrupted, hturn⟩ := turn_of_fetch?_none hfetch
    rw [hturn] at h
    exact absurd h (Nat.lt_irrefl _)
  | some fetched =>
    obtain ⟨line, x⟩ := fetched
    refine ⟨line, x, rfl, ?_⟩
    have hturn := turn_of_fetch?_eq_some hfetch
    by_cases hover : m.stepLimit.any (· < m.steps + 1)
    · rw [if_pos hover] at hturn
      rw [hturn] at h
      exact absurd h (Nat.lt_irrefl _)
    · rwa [if_neg hover] at hturn

/-- A turn that is not the last counts one statement. -/
theorem steps_of_turn {u : Machine} (h : m.turn = .running u) : u.steps = m.steps + 1 := by
  cases hfetch : m.fetch? with
  | none =>
    obtain ⟨result, interrupted, hturn⟩ := turn_of_fetch?_none hfetch
    rw [hturn] at h
    cases h
  | some fetched =>
    obtain ⟨line, x⟩ := fetched
    rw [turn_of_fetch?_eq_some hfetch] at h
    split at h
    · cases h
    · have hcount := (conclude_withStepLimit m.counted line x none).2
      rw [h] at hcount
      exact congrArg Prod.fst hcount

/-- Every turn of a run that goes on counts one step. -/
theorem steps_of_runFor {u : Machine} (n : Nat) (h : m.runFor n = .running u) :
    u.steps = m.steps + n := by
  induction n generalizing m with
  | zero =>
    cases h
    rfl
  | succ n ih =>
    rw [Machine.runFor] at h
    cases hturn : m.turn with
    | running m' =>
      rw [hturn] at h
      rw [ih h, steps_of_turn hturn, Nat.add_assoc, Nat.add_comm 1]
    | finished result m' =>
      rw [hturn] at h
      cases h

/-- With the key down the machine stops before the statement that it would fetch. -/
theorem Calm.turn_withKeys (hm : m.Calm) (keys : Nat → Bool) :
    (m.fetch? = none → (m.withKeys keys true).turn = .finished (.ok ()) (m.settle.withKeys keys true)) ∧
    ∀ line x, m.fetch? = some (line, x) → (m.withKeys keys true).turn =
      .finished (.error { kind := .breakPressed, line := some line.number })
        (m.settle.withKeys keys false) := by
  have hfetch : m.fetch? = (m.withKeys keys true).settle.program.at?
      (m.withKeys keys true).settle.cursor := by
    unfold fetch?
    rw [hm.interrupted]
    rfl
  rw [hfetch, turn_eq]
  refine ⟨fun hnone => ?_, fun line x hsome => ?_⟩
  · rw [hnone]
    rfl
  · rw [hsome]
    dsimp only
    rw [step_apply]
    rfl

/-- More turns make no difference to a run that is over. -/
theorem runFor_of_finished {n n' : Nat} {result : Except Error Unit} {u : Machine}
    (h : m.runFor n = .finished result u) (hn : n ≤ n') : m.runFor n' = .finished result u := by
  obtain ⟨d, rfl⟩ := Nat.exists_eq_add_of_le hn
  rw [runFor_add, h]

/-- A program is loaded into both. -/
theorem underKeys_load (m : Machine) (p : Program) :
    UnderKeys m.console.pressesBreak m.console.calls (m.calmed.load p) (m.load p) := by
  refine ⟨⟨rfl, rfl⟩, Nat.le_refl _, ?_⟩
  change _ = (m.calmed.load p).withKeys m.console.pressesBreak
    (pressed m.console.pressesBreak m.console.calls m.console.calls)
  rw [pressed_self]
  rfl

/-- BREAK takes effect before the very next statement, and not otherwise. A run in which the key is not
pressed during any call that it makes is the calm run. Let the key be pressed for the first time during
the turn after the first `k`. That turn fetches a statement and carries it out as the calm run does. If
the statement fails or ends the program, the run is over with its result. Otherwise everything that the
statement does is done, and `k + 1` statements have been counted. If the calm run has no statement left
to fetch, the run ends without an error, and else with BREAK in the line of the statement that the calm
run fetches next: that statement is neither counted nor carried out, and the key is up again. -/
theorem execute_interrupted (m : Machine) (p : Program) :
    let keys := m.console.pressesBreak
    (∀ n, (∀ c, m.console.calls < c → c ≤ (m.calmed.execute p n).machine.console.calls →
        keys c = false) →
      m.execute p n = (m.calmed.execute p n).withKeys keys false) ∧
    ∀ k u, m.calmed.execute p k = .running u →
      (∀ c, m.console.calls < c → c ≤ u.console.calls → keys c = false) →
      (∃ c, u.console.calls < c ∧ c ≤ (m.calmed.execute p (k + 1)).machine.console.calls ∧
        keys c = true) →
      (∃ line s, u.fetch? = some (line, s) ∧ m.calmed.execute p (k + 1) =
        conclude line (s.exec perform u.counted.patience u.counted)) ∧
      (∀ result v, m.calmed.execute p (k + 1) = .finished result v →
        ∀ n > k, m.execute p n = .finished result (v.withKeys keys true)) ∧
      ∀ v, m.calmed.execute p (k + 1) = .running v →
        v.steps = k + 1 ∧
        (v.fetch? = none → ∀ n > k + 1,
          m.execute p n = .finished (.ok ()) (v.settle.withKeys keys true)) ∧
        ∀ line s, v.fetch? = some (line, s) → ∀ n > k + 1,
          m.execute p n = .finished (.error { kind := .breakPressed, line := some line.number })
            (v.settle.withKeys keys false) := by
  intro keys
  have hload := underKeys_load m p
  refine ⟨fun n hfree => ?_, fun k u hu hfree hpressed => ?_⟩
  · rw [← pressed_eq_false_iff] at hfree
    obtain ⟨-, -, hrun⟩ := eq_withKeys (hload.runFor n hfree)
    rwa [← execute, ← execute, hfree] at hrun
  rw [← pressed_eq_false_iff] at hfree
  rw [← pressed_iff] at hpressed
  obtain ⟨hcalm, -, hrun⟩ := eq_withKeys (hload.runFor_succ hu hfree)
  have hturn : m.calmed.execute p (k + 1) = u.turn := runFor_succ_of_running hu
  have hearlier : m.console.calls ≤ u.console.calls := by
    have hcalls := (hload.1.runFor k).2
    rw [← execute, hu] at hcalls
    exact hcalls
  rw [← execute] at hcalm
  rw [← execute, ← execute, pressed_of_pressed hearlier hpressed] at hrun
  refine ⟨?_, fun result v hv n hn => ?_, fun v hv => ?_⟩
  · obtain ⟨c, hc, hc', -⟩ := pressed_iff.mp hpressed
    rw [hturn] at hc' ⊢
    exact turn_of_calls_lt (hc.trans_le hc')
  · rw [hv] at hrun
    exact runFor_of_finished hrun hn
  · rw [hv] at hrun hcalm
    have hover (n : Nat) (hn : n > k + 1) {result : Except Error Unit} {w : Machine}
        (hlast : (v.withKeys keys true).turn = .finished result w) :
        m.execute p n = .finished result w :=
      runFor_of_finished ((runFor_succ_of_running hrun).trans hlast) hn
    obtain ⟨hnone, hsome⟩ := Calm.turn_withKeys (m := v) hcalm keys
    refine ⟨?_, fun hfetch n hn => hover n hn (hnone hfetch),
      fun line x hfetch n hn => hover n hn (hsome line x hfetch)⟩
    have hsteps := steps_of_runFor (k + 1) hv
    rw [hsteps]
    exact Nat.zero_add _

/-- A program that prints without end, with an empty line in it. -/
def endlessPrinting : Program where
  lines := [
    { number := 10, statements := [.print [.literal (.text "X")] true] },
    { number := 15, statements := [] },
    { number := 20, statements := [.jump .goto 10] }]

/-- The key is pressed while the first line is printed. -/
theorem execute_interrupted_endlessPrinting :
    ∀ n > 1, ∃ v, (new { pressesBreak := (· == 1) } 0 256).execute endlessPrinting n =
        .finished (.error { kind := .breakPressed, line := some 20 }) v ∧
      v.console.events = #[.printLine "X"] ∧ v.steps = 1 ∧ v.interrupted = false := by
  intro n hn
  let m : Machine := new { pressesBreak := (· == 1) } 0 256
  have hstart : m.calmed.execute endlessPrinting 0 = .running (m.calmed.load endlessPrinting) := rfl
  have hprinted : m.calmed.execute endlessPrinting 1 =
      .running (m.calmed.execute endlessPrinting 1).machine := rfl
  have hfetch : (m.calmed.execute endlessPrinting 1).machine.fetch? =
      some (⟨20, [.jump .goto 10]⟩, .jump .goto 10) := rfl
  have hfree : ∀ c, m.console.calls < c → c ≤ (m.calmed.load endlessPrinting).console.calls →
      m.console.pressesBreak c = false := fun c hc hle => absurd (hc.trans_le hle) (Nat.lt_irrefl 0)
  obtain ⟨-, -, hrest⟩ := (execute_interrupted m endlessPrinting).2 0 _ hstart hfree
    ⟨1, Nat.one_pos, Nat.le_refl 1, rfl⟩
  exact ⟨_, (hrest _ hprinted).2.2 _ _ hfetch n hn, rfl, rfl, rfl⟩

end Machine

end CommodoreBasic
