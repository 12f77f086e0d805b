import CommodoreBasic.Proofs.EvaluationFrame
import CommodoreBasic.Proofs.Subroutines

/-!
# The stack limit

A machine is compared with the same machine under a greater stack limit. The limit is looked at when
a loop is begun, a subroutine called, and in user functions, whose calls in one another it bounds too.
Until the smaller limit is hit, both machines do the same. Where it is hit, the program under it is
over, and the other goes on from there, so that its transcript begins with the whole of the first.

Only in user functions may an overflow pass unnoticed. Each call sets its variable back on the way
out, and if memory is full that fails, which is the error then. But memory that is full on the way out
was full already where the smaller limit was hit, and there the call fails under the greater limit
too.
-/

namespace CommodoreBasic.Machine

open CommodoreBasic.Action

variable {α β : Type} {l l' : Nat} {inCall : Prop}

/-- The machine with another stack limit. -/
def withStackLimit (m : Machine) (limit : Nat) : Machine :=
  { m with loops := { m.loops with limit }, returns := { m.returns with limit } }

/-- The same for a machine that is running or has finished. -/
def Progress.withStackLimit (limit : Nat) : Progress → Progress
  | running m => running (m.withStackLimit limit)
  | finished result m => finished result (m.withStackLimit limit)

/-- What has passed through the console. -/
def events (m : Machine) : List Event := m.console.events.toList

/-- Where nothing passes through the console, nothing is taken back. -/
theorem prefix_events {m u : Machine} (h : u.events = m.events) : m.events <+: u.events :=
  h ▸ List.prefix_rfl

/-- The action only adds to what has passed through the console. -/
def Grows (x : Action Machine α) : Prop := ∀ m, m.events <+: (x m).2.events

/-- The action does not look at the stack limit and leaves it as it is. -/
def Unlimited (x : Action Machine α) : Prop :=
  ∀ m limit, x (m.withStackLimit limit) = ((x m).1, (x m).2.withStackLimit limit)

/-- What comes of an action under a limit, and under a greater one: the same; an overflow, and
something that may go on from there; or an overflow, and some error in its place, where memory is
full. In a call of a user function, where a variable is to be set back, the second is only met with
room in memory. -/
inductive Outdone (inCall : Prop) (l l' : Nat) :
    Except Error α × Machine → Except Error α × Machine → Prop where
  | same {m : Machine} (result : Except Error α) (hm : m.memory.Typed) :
    Outdone inCall l l' (result, m.withStackLimit l) (result, m.withStackLimit l')
  | overflow {m : Machine} {e : Error} {y : Except Error α × Machine} (he : e.kind = .stackOverflow)
    (hroom : inCall → m.memory.scalars.size < Memory.scalarCapacity)
    (hevents : m.events <+: y.2.events) : Outdone inCall l l' (.error e, m) y
  | stuck {m : Machine} {e e' : Error} (hm : m.memory.Typed) (he : e.kind = .stackOverflow)
    (hfull : Memory.scalarCapacity ≤ m.memory.scalars.size) :
    Outdone inCall l l' (.error e, m.withStackLimit l) (.error e', m.withStackLimit l')

/-- The first action under one limit is followed by the second under a greater one. -/
structure Follows (inCall : Prop) (l l' : Nat) (x y : Action Machine α) : Prop where
  /-- In a call no variable vanishes. -/
  keys : inCall → ∀ (m : Machine) (key : Name), key ∈ m.memory.scalars →
    key ∈ (x m).2.memory.scalars
  grows : Grows y
  outdone : ∀ m : Machine, m.memory.Typed →
    Outdone inCall l l' (x (m.withStackLimit l)) (y (m.withStackLimit l'))

/-- Two actions that only add to what was printed do so one after the other. -/
theorem Grows.bind {x : Action Machine α} {f : α → Action Machine β} (hx : Grows x)
    (hf : ∀ a, Grows (f a)) : Grows (x >>= f) := by
  intro m
  have hm := hx m
  rw [bind_apply]
  rcases hxm : x m with ⟨_ | a, m'⟩ <;> rw [hxm] at hm
  · exact hm
  · exact hm.trans (hf a m')

/-- Following is a relation that whole statements inherit from single requests. -/
theorem compositional_follows : Compositional (Follows inCall l l') where
  ofExcept _ := ⟨fun _ _ _ h => h, fun _ => List.prefix_rfl, fun _ hm => .same _ hm⟩
  bind := by
    intro α β x y f g hxy hfg
    refine ⟨fun hin m key hkey => ?_, hxy.grows.bind fun a => (hfg a).grows, fun m hm => ?_⟩
    · have hkey' := hxy.keys hin m key hkey
      rw [bind_apply]
      rcases hxm : x m with ⟨_ | a, m'⟩ <;> rw [hxm] at hkey'
      · exact hkey'
      · exact (hfg a).keys hin m' key hkey'
    · have hout := hxy.outdone m hm
      rw [bind_apply, bind_apply]
      generalize x (m.withStackLimit l) = u, y (m.withStackLimit l') = v at hout ⊢
      cases hout with
      | @same m' result hm' =>
        cases result with
        | error e => exact .same (.error e) hm'
        | ok a => exact (hfg a).outdone m' hm'
      | overflow he hroom hevents =>
        obtain ⟨_ | a, t⟩ := v
        · exact .overflow he hroom hevents
        · exact .overflow he hroom (hevents.trans ((hfg a).grows t))
      | stuck hm' he hfull => exact .stuck hm' he hfull

/-! ## Calls of user functions -/

/-- Calls do not concern the console. -/
theorem events_callUser (room : Nat) (f : String) (arguments : List Value) (m : Machine) :
    (callUser room f arguments m).2.events = m.events := by
  obtain ⟨-, ⟨-, hbeside⟩, -⟩ :=
    (coupling_beside m).callUser_agree room m.depth f arguments m m ⟨⟨rfl, rfl⟩, rfl⟩
  rw [hbeside]
  rfl

/-- Actions that follow one another do so inside calls, too. -/
theorem Follows.nested {x y : Action Machine α} (h : Follows inCall l l' x y) :
    Follows inCall l l' (nested x) (nested y) := by
  refine ⟨fun hin m => h.keys hin { m with depth := m.depth + 1 },
    fun m => h.grows { m with depth := m.depth + 1 }, fun m hm => ?_⟩
  have hout := h.outdone { m with depth := m.depth + 1 } hm
  have hnested (z : Action Machine α) (limit : Nat) : Machine.nested z (m.withStackLimit limit) =
      ((z (withStackLimit { m with depth := m.depth + 1 } limit)).1,
        { (z (withStackLimit { m with depth := m.depth + 1 } limit)).2 with
          depth := (z (withStackLimit { m with depth := m.depth + 1 } limit)).2.depth - 1 }) := rfl
  rw [hnested, hnested]
  generalize x (withStackLimit { m with depth := m.depth + 1 } l) = u,
    y (withStackLimit { m with depth := m.depth + 1 } l') = v at hout ⊢
  cases hout with
  | @same m' result hm' => exact .same (m := { m' with depth := m'.depth - 1 }) result hm'
  | overflow he hroom hevents => exact .overflow he hroom hevents
  | @stuck m' e e' hm' he hfull => exact .stuck (m := { m' with depth := m'.depth - 1 }) hm' he hfull

/-- Sets a variable back after an action has come to a result. -/
def setBack (n : Name) (saved : Value) (x : Except Error α × Machine) : Except Error α × Machine :=
  match Memory.store n saved x.2.memory with
  | (.ok (), memory) => (x.1, { x.2 with memory })
  | (.error e, memory) => (.error e, { x.2 with memory })

section SetBack

variable {n : Name} {v saved : Value} {m : Machine} {memory : Memory} {e : Error}

/-- A variable that is put back leaves the result as it is. -/
theorem setBack_of_ok (h : Memory.store n saved m.memory = (.ok (), memory)) (r : Except Error α) :
    setBack n saved (r, m) = (r, { m with memory }) := by
  unfold setBack
  rw [h]

/-- A variable that cannot be put back is an error. -/
theorem setBack_of_error (h : Memory.store n saved m.memory = (.error e, memory))
    (r : Except Error α) : setBack n saved (r, m) = (.error e, { m with memory }) := by
  unfold setBack
  rw [h]

/-- A parameter that cannot be bound is an error. -/
theorem withVariable_of_error (h : Memory.store n v m.memory = (.error e, memory))
    (x : Action Machine α) : withVariable n v x m = (.error e, { m with memory }) := by
  unfold withVariable
  dsimp only
  rw [onMemory_apply, h]

/-- A variable that could be set is set back with what it held before. -/
theorem withVariable_of_ok (h : Memory.store n v m.memory = (.ok (), memory))
    (x : Action Machine α) :
    withVariable n v x m = setBack n (m.memory.fetch n) (x { m with memory }) := by
  unfold withVariable setBack
  dsimp only
  rw [onMemory_apply, h]
  dsimp only
  rw [onMemory_apply]
  generalize x _ = y
  rcases Memory.store n (m.memory.fetch n) y.2.memory with ⟨_ | ⟨⟨⟩⟩, memory⟩ <;> rfl

/-- Putting a variable back prints nothing. -/
theorem events_setBack (x : Except Error α × Machine) :
    (setBack n saved x).2.events = x.2.events := by
  unfold setBack
  split <;> rfl

/-- It takes no variable away. -/
theorem mem_setBack {key : Name} (x : Except Error α × Machine) (h : key ∈ x.2.memory.scalars) :
    key ∈ (setBack n saved x).2.memory.scalars := by
  obtain ⟨r, m⟩ := x
  obtain ⟨e, hstore⟩ | ⟨-, -, -, hstore⟩ := Memory.store_cases n saved m.memory
  · rw [setBack_of_error hstore]
    exact h
  · rw [setBack_of_ok hstore]
    exact Std.HashMap.mem_insert.mpr (.inr h)

/-- A variable that exists can be set back unless memory is full. After an overflow with room in
memory the overflow stays the error; if memory is full, the same error takes the place of both. -/
theorem Outdone.setBack {u w : Except Error α × Machine} (h : Outdone True l l' u w)
    (hreserved : n.fold.isReserved = false) (hsaved : saved.fits n.fold = true)
    (hkey : n.fold ∈ u.2.memory.scalars) :
    Outdone True l l' (setBack n saved u) (setBack n saved w) := by
  cases h with
  | @same m result hm =>
    obtain ⟨e, hstore⟩ | ⟨-, hfits, -, hstore⟩ := Memory.store_cases n saved m.memory
    · rw [setBack_of_error (m := m.withStackLimit l) hstore,
        setBack_of_error (m := m.withStackLimit l') hstore]
      exact .same (m := m) (.error e) hm
    · rw [setBack_of_ok (m := m.withStackLimit l) hstore,
        setBack_of_ok (m := m.withStackLimit l') hstore]
      refine .same (m := { m with memory := ?_ }) result ?_
      exact Memory.typed_insert hm hfits
  | @overflow m e w he hroom hevents =>
    rw [setBack_of_ok (Memory.store_of_room hreserved hsaved (hroom trivial))]
    refine .overflow he (fun _ => ?_) ?_
    · rw [Std.HashMap.size_insert, if_pos hkey]
      exact hroom trivial
    · rw [events_setBack]
      exact hevents
  | @stuck m e e' hm he hfull =>
    obtain ⟨e'', hstore⟩ | ⟨-, -, hroom, -⟩ := Memory.store_cases n saved m.memory
    · rw [setBack_of_error (m := m.withStackLimit l) hstore,
        setBack_of_error (m := m.withStackLimit l') hstore]
      exact .same (m := m) (.error e'') hm
    · omega

end SetBack

/-- On the way out of a call the variable is set back, unless memory is full. -/
theorem Follows.withVariable (n : Name) (v : Value) {x y : Action Machine α}
    (h : Follows True l l' x y) : Follows True l l' (withVariable n v x) (withVariable n v y) := by
  refine ⟨fun _ m key hkey => ?_, fun m => ?_, fun m hm => ?_⟩ <;>
    obtain ⟨e, hstore⟩ | ⟨hreserved, hfits, -, hstore⟩ := Memory.store_cases n v m.memory
  · rw [withVariable_of_error hstore]
    exact hkey
  · rw [withVariable_of_ok hstore]
    exact mem_setBack _ (h.keys trivial _ key (Std.HashMap.mem_insert.mpr (.inr hkey)))
  · exact prefix_events (by rw [withVariable_of_error hstore])
  · rw [withVariable_of_ok hstore, events_setBack]
    exact h.grows { m with memory := { m.memory with scalars := m.memory.scalars.insert n.fold v } }
  · rw [withVariable_of_error (m := m.withStackLimit l) hstore,
      withVariable_of_error (m := m.withStackLimit l') hstore]
    exact .same (m := m) (.error e) hm
  · rw [withVariable_of_ok (m := m.withStackLimit l) hstore,
      withVariable_of_ok (m := m.withStackLimit l') hstore]
    have hout := h.outdone
      { m with memory := { m.memory with scalars := m.memory.scalars.insert n.fold v } }
      (Memory.typed_insert hm hfits)
    refine hout.setBack hreserved (Memory.fetch_fits hm hreserved) ?_
    exact h.keys trivial _ n.fold Std.HashMap.mem_insert_self

/-- An action on memory that leaves the variables alone does not concern the limit. -/
theorem follows_onMemory {act : Action Memory α} (hact : Keeps Memory.scalars act) :
    Follows inCall l l' (onMemory act) (onMemory act) := by
  refine ⟨fun _ m key hkey => ?_, fun m => List.prefix_rfl, fun m hm => ?_⟩
  · rw [onMemory_apply]
    exact (hact m.memory).symm ▸ hkey
  · exact .same (m := { m with memory := (act m.memory).2 }) (act m.memory).1
      (Memory.typed_of_scalars_eq hm (hact m.memory))

/-- The generator does not depend on the limit. -/
theorem follows_onRandom (act : Action Random α) :
    Follows inCall l l' (onRandom act) (onRandom act) where
  keys _ _ _ h := h
  grows _ := List.prefix_rfl
  outdone m hm := .same (m := { m with random := (act m.random).2 }) (act m.random).1 hm

/-- Two ways to answer the requests of an evaluation follow one another if their calls do. -/
theorem answer_follows {call call' : String → List Value → Action Machine Value}
    (hcall : ∀ f arguments, Follows inCall l l' (call f arguments) (call' f arguments)) :
    Handler.RelatedOn Request.isEvaluation (Follows inCall l l') (answer call) (answer call') := by
  intro a r hr
  cases r with
  | fetch n =>
    exact ⟨fun _ _ _ h => h, fun _ => List.prefix_rfl,
      fun m hm => .same (m := m) (.ok (m.memory.fetch n)) hm⟩
  | fetchElement n subscripts =>
    exact follows_onMemory (Memory.keeps_scalars_fetchElement n subscripts)
  | call c arguments =>
    cases c with
    | builtin f => exact follows_onRandom (f.apply arguments)
    | user f => exact hcall f arguments
  | _ => cases hr

/-- A function is found whatever the limit is. -/
theorem resolveCall_withStackLimit (f : String) (arguments : List Value) (m : Machine)
    (limit : Nat) :
    resolveCall f arguments (m.withStackLimit limit) =
      ((resolveCall f arguments m).1, m.withStackLimit limit) := by
  unfold resolveCall
  dsimp only [withStackLimit]
  split
  · rfl
  · split <;> rfl
  · rfl

/-- So the search for it follows itself. -/
theorem resolveCall_follows (f : String) (arguments : List Value) :
    Follows inCall l l' (resolveCall f arguments) (resolveCall f arguments) := by
  have hstate (m : Machine) : (resolveCall f arguments m).2 = m := by
    obtain ⟨e, h⟩ | ⟨g, v, -, h⟩ := resolveCall_cases f arguments m <;> rw [h]
  refine ⟨fun _ m key h => ?_, fun m => ?_, fun m hm => ?_⟩
  · rwa [hstate]
  · exact prefix_events (by rw [hstate])
  · rw [resolveCall_withStackLimit, resolveCall_withStackLimit]
    exact .same _ hm

/-- At the end of its room a call overflows, where a call with more room goes on. -/
theorem callUser_zero_follows (room : Nat) (f : String) (arguments : List Value) :
    Follows True l l' (callUser 0 f arguments) (callUser room f arguments) := by
  have hstate (m : Machine) : (callUser 0 f arguments m).2 = m := by
    obtain ⟨e, h⟩ | ⟨g, v, -, h⟩ := resolveCall_cases f arguments m
    · rw [callUser, bind_of_error h]
    · rw [callUser, bind_of_ok h]
      rfl
  refine ⟨fun _ m key h => ?_, fun m => ?_, fun m hm => ?_⟩
  · rwa [hstate]
  · exact prefix_events (events_callUser room f arguments m)
  have hresolve (limit : Nat) := resolveCall_withStackLimit f arguments m limit
  obtain ⟨e, h⟩ | ⟨g, v, -, h⟩ := resolveCall_cases f arguments m <;> rw [h] at hresolve
  · have hrefused (room limit : Nat) :
        callUser room f arguments (m.withStackLimit limit) = (.error e, m.withStackLimit limit) := by
      cases room <;> rw [callUser, bind_of_error (hresolve limit)]
    rw [hrefused, hrefused]
    exact .same (.error e) hm
  · have hover (limit : Nat) : callUser 0 f arguments (m.withStackLimit limit) =
        (raise .stackOverflow, m.withStackLimit limit) := by
      rw [callUser, bind_of_ok (hresolve limit)]
      rfl
    rw [hover]
    cases room with
    | zero =>
      rw [hover]
      exact .same (raise .stackOverflow) hm
    | succ room =>
      obtain hroom | hfull := Nat.lt_or_ge m.memory.scalars.size Memory.scalarCapacity
      · refine .overflow rfl (fun _ => hroom) ?_
        rw [events_callUser]
        exact List.prefix_rfl
      · obtain ⟨e, hstore⟩ | ⟨-, -, hroom, -⟩ := Memory.store_cases g.parameter v m.memory
        · rw [callUser, bind_of_ok (hresolve l')]
          dsimp only
          rw [withVariable_of_error (m := m.withStackLimit l') hstore]
          exact .stuck (m := m) hm rfl hfull
        · omega

/-- Calls with less room are followed by calls with more. The induction is on the room, as the body
may call any function, itself included. -/
theorem callUser_follows {room room' : Nat} (h : room ≤ room') (f : String)
    (arguments : List Value) :
    Follows True l l' (callUser room f arguments) (callUser room' f arguments) := by
  induction room generalizing room' f arguments with
  | zero => exact callUser_zero_follows room' f arguments
  | succ room ih =>
    obtain ⟨room', rfl⟩ : ∃ k, room' = k + 1 := ⟨room' - 1, by omega⟩
    rw [callUser, callUser]
    refine compositional_follows.bind (resolveCall_follows f arguments) fun c => ?_
    have hask : Handler.RelatedOn Request.isEvaluation (Follows True l l') (answer (callUser room))
        (answer (callUser room')) :=
      answer_follows fun f arguments => ih (Nat.le_of_succ_le_succ h) f arguments
    exact (Expr.eval_related compositional_follows hask c.1.body).nested.withVariable c.1.parameter c.2

/-! ## Requests -/

namespace Unlimited

/-- Actions that do not depend on the limit do not do so one after the other. -/
theorem bind {x : Action Machine α} {f : α → Action Machine β} (hx : Unlimited x)
    (hf : ∀ a, Unlimited (f a)) : Unlimited (x >>= f) := by
  intro m limit
  rw [bind_apply, bind_apply, hx m limit]
  rcases x m with ⟨_ | a, m'⟩
  · rfl
  · exact hf a m' limit

/-- What does not look at the limit is the same under every limit. -/
theorem follows {x : Action Machine α} (hx : Unlimited x) (hgrows : Grows x)
    (htyped : ∀ m : Machine, m.memory.Typed → (x m).2.memory.Typed) : Follows False l l' x x := by
  refine ⟨False.elim, hgrows, fun m hm => ?_⟩
  rw [hx m l, hx m l']
  exact .same (x m).1 (htyped m hm)

/-- Actions on the memory do not depend on it. -/
theorem onMemory (act : Action Memory α) : Unlimited (onMemory act) := fun _ _ => rfl

/-- Neither do those on the console. -/
theorem onConsole (act : Action Console α) : Unlimited (onConsole act) := fun _ _ => rfl

/-- Neither does the search for a line. -/
theorem findLine (n : LineNumber) : Unlimited (findLine n) := by
  intro m limit
  unfold Machine.findLine
  dsimp only [withStackLimit]
  split <;> rfl

/-- Neither does RETURN. -/
theorem comeBack : Unlimited comeBack := by
  intro m limit
  unfold Machine.comeBack Stack.pop?
  cases hitems : m.returns.items with
  | nil => simp only [withStackLimit, hitems]
  | cons i rest =>
    simp only [withStackLimit, hitems]
    rfl

/-- Neither does RUN. -/
theorem run (n : Option LineNumber) : Unlimited (run n) := by
  have hclear (i : Nat) : Unlimited (Action.modify fun m => m.clear.jumpToLine i) := fun _ _ => rfl
  cases n with
  | none => exact hclear 0
  | some n => exact (findLine n).bind hclear

/-- Neither does STOP. -/
theorem stop : Unlimited stop :=
  bind (fun m limit => onConsole (Console.printLine m.stopMessage) m limit) fun _ _ _ => rfl

/-- Neither does READ. -/
theorem readData : Unlimited readData := by
  intro m limit
  unfold Machine.readData
  dsimp only [withStackLimit]
  split <;> rfl

/-- Neither does NEXT. -/
theorem nextLoop (counter : Option Name) : Unlimited (nextLoop counter) := by
  intro m limit
  have hitems : (m.withStackLimit limit).loops.items = m.loops.items := rfl
  rw [nextLoop_eq, nextLoop_eq, hitems]
  cases Loop.steppedBy counter m.loops.items with
  | nil => rfl
  | cons l outer =>
    dsimp only
    rw [stepLoop_eq rfl, stepLoop_eq rfl]
    dsimp only [withStackLimit]
    split
    · rfl
    · split
      · split <;> rfl
      · rfl

/-- Neither does what comes before a statement. -/
theorem beginStep : Unlimited beginStep := by
  intro m limit
  have hlimited : Machine.beginStep (m.withStackLimit limit) =
      if m.interrupted then
        (raise .breakPressed, withStackLimit { m with interrupted := false } limit)
      else if m.stepLimit.any (· < m.steps + 1) then
        (raise .infiniteLoop, withStackLimit { m with steps := m.steps + 1 } limit)
      else (.ok (), withStackLimit (advanceClock { m with steps := m.steps + 1 }) limit) := rfl
  rw [hlimited, Machine.beginStep]
  dsimp only
  split
  · rfl
  · split <;> rfl

end Unlimited

/-- The memory prints nothing. -/
theorem grows_onMemory (act : Action Memory α) : Grows (onMemory act) := fun _ => List.prefix_rfl

/-- The console adds to what was printed. -/
theorem grows_onConsole (act : List Reply → Event × Except Error α × List Reply) :
    Grows (onConsole (Console.call act)) := by
  intro m
  have hconsole : (onConsole (Console.call act) m).2.console = (Console.call act m.console).2 := rfl
  unfold events
  rw [hconsole]
  unfold Console.call
  dsimp only
  split <;> exact Array.toList_push ▸ List.prefix_append _ _

/-- No request takes anything back that has passed through the console. -/
theorem grows_perform (a : Answer) (r : Request a) : Grows (perform a r) := by
  intro m
  cases r with
  | print | printLine | ask | clearScreen => exact grows_onConsole _ m
  | stop => exact (Grows.bind (fun m => grows_onConsole _ m) fun _ _ => List.prefix_rfl) m
  | read =>
    change m.events <+: (readData m).2.events
    unfold readData
    split <;> exact List.prefix_rfl
  | jump j n =>
    cases j with
    | goto =>
      have hevents : (goto n m).2.events = m.events := by
        unfold goto
        obtain ⟨i, h⟩ | h := findLine_cases n m
        · rw [bind_of_ok h]
          rfl
        · rw [bind_of_error h]
      exact prefix_events hevents
    | gosub =>
      have hevents : (gosub n m).2.events = m.events := by
        obtain ⟨e, h⟩ | ⟨i, returns, -, h⟩ := gosub_cases n m <;> rw [h]
        rfl
      exact prefix_events hevents
  | comeBack =>
    have hevents : (comeBack m).2.events = m.events := by
      obtain ⟨-, h⟩ | ⟨i, rest, -, h⟩ := comeBack_cases m <;> rw [h]
      rfl
    exact prefix_events hevents
  | run n =>
    have hevents : (run n m).2.events = m.events := by
      obtain ⟨e, h⟩ | ⟨i, h⟩ := run_cases n m <;> rw [h]
      rfl
    exact prefix_events hevents
  | beginLoop counter start limit step =>
    obtain ⟨_, _, _, _, h⟩ := beginLoop_state counter start limit step m
    change m.events <+: (beginLoop counter start limit step m).2.events
    rw [h]
    exact List.prefix_rfl
  | nextLoop counter =>
    obtain ⟨_, _, _, _, h⟩ := nextLoop_state counter m
    change m.events <+: (nextLoop counter m).2.events
    rw [h]
    exact List.prefix_rfl
  | call c arguments =>
    cases c with
    | builtin f => exact List.prefix_rfl
    | user f => exact prefix_events (events_callUser _ f arguments m)
  | store n v => exact grows_onMemory (Memory.store n v) m
  | dimension n sizes => exact grows_onMemory (Memory.dimension n sizes) m
  | fetchElement n subscripts => exact grows_onMemory (Memory.fetchElement n subscripts) m
  | storeElement n subscripts v => exact grows_onMemory (Memory.storeElement n subscripts v) m
  | fetch | restore | finish | skipLine | define => exact List.prefix_rfl

/-- What holds in a call holds outside of it. -/
theorem Outdone.outsideCall {u v : Except Error α × Machine} (h : Outdone inCall l l' u v) :
    Outdone False l l' u v := by
  cases h with
  | same result hm => exact .same result hm
  | overflow he _ hevents => exact .overflow he False.elim hevents
  | stuck hm he hfull => exact .stuck hm he hfull

/-- The same of actions. -/
theorem Follows.outsideCall {x y : Action Machine α} (h : Follows inCall l l' x y) :
    Follows False l l' x y :=
  ⟨False.elim, h.grows, fun m hm => (h.outdone m hm).outsideCall⟩

/-- A stack that takes an entry under a limit takes it under a greater one. -/
theorem push_cases {γ : Type} (h : l ≤ l') (items : List γ) (c : γ) :
    Stack.push { limit := l, items } c = raise .stackOverflow ∨
      Stack.push { limit := l, items } c = .ok { limit := l, items := c :: items } ∧
        Stack.push { limit := l', items } c = .ok { limit := l', items := c :: items } := by
  obtain hroom | hfull := Nat.lt_or_ge items.length l
  · exact .inr ⟨if_pos hroom, if_pos (hroom.trans_le h)⟩
  · exact .inl (if_neg (Nat.not_lt_of_le hfull))

/-- Entering a subroutine under the lower limit is outdone by entering it under the greater one. -/
theorem enterSubroutine_outdone (h : l ≤ l') (i : Nat) {m : Machine} (hm : m.memory.Typed) :
    Outdone False l l' (enterSubroutine i (m.withStackLimit l))
      (enterSubroutine i (m.withStackLimit l')) := by
  have hpush := push_cases h m.returns.items (m.cursor.line + 1)
  unfold enterSubroutine
  dsimp only [withStackLimit]
  obtain hpush | ⟨hpush, hpush'⟩ := hpush
  · rw [hpush]
    refine .overflow rfl False.elim ?_
    split <;> exact List.prefix_rfl
  · rw [hpush, hpush']
    let returns : Stack Nat := { m.returns with items := (m.cursor.line + 1) :: m.returns.items }
    exact .same (m := { m with returns }.jumpToLine i) (.ok ()) hm

/-- So is GOSUB. -/
theorem gosub_outdone (h : l ≤ l') (n : LineNumber) {m : Machine} (hm : m.memory.Typed) :
    Outdone False l l' (gosub n (m.withStackLimit l)) (gosub n (m.withStackLimit l')) := by
  have hfind (limit : Nat) := Unlimited.findLine n m limit
  unfold gosub
  obtain ⟨i, hi⟩ | hi := findLine_cases n m <;> rw [hi] at hfind
  · rw [bind_of_ok (hfind l), bind_of_ok (hfind l')]
    exact enterSubroutine_outdone h i hm
  · rw [bind_of_error (hfind l), bind_of_error (hfind l')]
    exact .same _ hm

/-- Entering a loop under the lower limit is outdone by entering it under the greater one. -/
theorem enterLoop_outdone (h : l ≤ l') (counter : Name) (start limit step : Float) {m : Machine}
    (hm : m.memory.Typed) :
    Outdone False l l' (enterLoop counter start limit step (m.withStackLimit l))
      (enterLoop counter start limit step (m.withStackLimit l')) := by
  unfold enterLoop
  dsimp only [withStackLimit]
  generalize ({ counter, limit, step, resume := _ } : Loop) = loop
  split
  · obtain hpush | ⟨hpush, hpush'⟩ := push_cases h m.loops.items loop
    · rw [hpush]
      refine .overflow rfl False.elim ?_
      split <;> exact List.prefix_rfl
    · rw [hpush, hpush']
      let loops : Stack Loop := { m.loops with items := loop :: m.loops.items }
      exact .same (m := { m with loops }) (.ok ()) hm
  · split
    · exact .same (m := m.jumpTo _) (.ok ()) hm
    · exact .same (m := m) _ hm

/-- So is FOR. -/
theorem beginLoop_outdone (h : l ≤ l') (counter : Name) (start limit step : Float) {m : Machine}
    (hm : m.memory.Typed) :
    Outdone False l l' (beginLoop counter start limit step (m.withStackLimit l))
      (beginLoop counter start limit step (m.withStackLimit l')) := by
  have htyped := Memory.typed_store counter.fold (.number start) hm
  have houtside (memory : Memory) (limit : Nat) :
      (m.withStackLimit limit).outsideLoop counter memory =
        (m.outsideLoop counter memory).withStackLimit limit := rfl
  have hmemory (limit : Nat) : (m.withStackLimit limit).memory = m.memory := rfl
  rw [beginLoop_eq, beginLoop_eq, hmemory, hmemory]
  split
  · exact .same _ hm
  · rcases hstore : Memory.store counter.fold (.number start) m.memory with ⟨_ | ⟨⟨⟩⟩, memory⟩ <;>
      rw [hstore] at htyped <;> dsimp only <;> rw [houtside, houtside]
    · exact .same _ htyped
    · exact enterLoop_outdone h counter.fold start limit step htyped

/-- What a machine does with a request under a limit, and under a greater one. -/
theorem perform_follows (h : l ≤ l') (a : Answer) (r : Request a) :
    Follows False l l' (perform a r) (perform a r) := by
  refine ⟨False.elim, grows_perform a r, fun m hm => ?_⟩
  have hunlimited (hr : Unlimited (perform a r)) : Outdone False l l'
      (perform a r (m.withStackLimit l)) (perform a r (m.withStackLimit l')) :=
    (hr.follows (grows_perform a r) fun m hm => typed_perform hm a r).outdone m hm
  have heval : Handler.RelatedOn Request.isEvaluation (Follows False l l')
      (answer (callUser (l - m.depth))) (answer (callUser (l' - m.depth))) :=
    answer_follows fun f arguments => (callUser_follows (by omega) f arguments).outsideCall
  cases r with
  | fetch | fetchElement | call => exact (heval _ _ rfl).outdone m hm
  | jump j n =>
    cases j with
    | goto => exact hunlimited ((Unlimited.findLine n).bind fun _ _ _ => rfl)
    | gosub => exact gosub_outdone h n hm
  | beginLoop counter start limit step => exact beginLoop_outdone h counter start limit step hm
  | comeBack => exact hunlimited Unlimited.comeBack
  | run n => exact hunlimited (Unlimited.run n)
  | stop => exact hunlimited Unlimited.stop
  | read => exact hunlimited Unlimited.readData
  | nextLoop counter => exact hunlimited (Unlimited.nextLoop counter)
  | restore n => exact hunlimited fun _ _ => by cases n <;> rfl
  | store n v => exact hunlimited (Unlimited.onMemory (Memory.store n v))
  | dimension n sizes => exact hunlimited (Unlimited.onMemory (Memory.dimension n sizes))
  | storeElement n subscripts v =>
    exact hunlimited (Unlimited.onMemory (Memory.storeElement n subscripts v))
  | print s => exact hunlimited (Unlimited.onConsole (Console.print s))
  | printLine s => exact hunlimited (Unlimited.onConsole (Console.printLine s))
  | ask s => exact hunlimited (Unlimited.onConsole (Console.ask s))
  | clearScreen => exact hunlimited (Unlimited.onConsole Console.clear)
  | finish | skipLine | define => exact hunlimited fun _ _ => rfl

/-! ## Turns and runs -/

/-- Before a statement is carried out only the count, the key and the clock can change. -/
theorem beginStep_state (m : Machine) :
    ∃ steps interrupted clock,
      (beginStep m).2 = { m with steps, interrupted, memory := { m.memory with clock } } := by
  unfold beginStep
  split
  · exact ⟨_, _, m.memory.clock, rfl⟩
  · dsimp only
    split
    · exact ⟨_, _, m.memory.clock, rfl⟩
    · exact ⟨_, _, m.memory.clock.advance, rfl⟩

/-- What comes before a statement follows itself. -/
theorem beginStep_follows : Follows False l l' beginStep beginStep := by
  refine Unlimited.beginStep.follows (fun m => ?_) fun m hm => ?_ <;>
    obtain ⟨_, _, _, hstate⟩ := beginStep_state m <;> rw [hstate]
  · exact List.prefix_rfl
  · exact Memory.typed_of_scalars_eq hm rfl

/-- A statement follows itself. -/
theorem step_follows (h : l ≤ l') (s : Statement) : Follows False l l' (step s) (step s) := by
  have hexec (patience : Nat) :=
    s.exec_related compositional_follows patience fun a r _ => perform_follows h a r
  exact compositional_follows.bind beginStep_follows fun _ =>
    ⟨False.elim, fun m => (hexec m.patience).grows m, fun m hm => (hexec m.patience).outdone m hm⟩

/-- The program is over because a stack was full. -/
def Progress.Overflows (x : Progress) : Prop :=
  ∃ e m, x = .finished (.error e) m ∧ e.kind = .stackOverflow

/-- What comes of some turns under a limit, and under a greater one: the same, or an overflow, and
something that begins with the same transcript. -/
inductive Progress.Outdone (l l' : Nat) : Progress → Progress → Prop where
  | same (x : Progress) (hx : x.machine.memory.Typed) :
    Outdone l l' (x.withStackLimit l) (x.withStackLimit l')
  | overflow {x y : Progress} (hx : x.Overflows) (hevents : x.machine.events <+: y.machine.events) :
    Outdone l l' x y

/-- The limit does not matter to where a machine goes on. -/
theorem proceed_withStackLimit (m : Machine) (limit : Nat) :
    (m.withStackLimit limit).proceed = m.proceed.withStackLimit limit := by
  have hflow : (m.withStackLimit limit).flow = m.flow := rfl
  unfold proceed
  rw [hflow]
  cases m.flow <;> rfl

/-- What a statement comes to prints nothing. -/
theorem events_conclude (line : Line) (x : Except Error Unit × Machine) :
    (conclude line x).machine.events = x.2.events := by
  obtain ⟨_ | ⟨⟨⟩⟩, m⟩ := x
  · rfl
  · unfold conclude proceed
    dsimp only
    cases m.flow <;> rfl

/-- A statement that is outdone comes to something that is outdone. -/
theorem conclude_outdone (line : Line) {u v : Except Error Unit × Machine}
    (h : Outdone False l l' u v) :
    Progress.Outdone l l' (conclude line u) (conclude line v) := by
  have hover {e : Error} (he : e.kind = .stackOverflow) (m : Machine) :
      (conclude line (.error e, m)).Overflows := ⟨_, m, rfl, (e.inLine_kind line.number).trans he⟩
  cases h with
  | @same m result hm =>
    cases result with
    | error e => exact .same (conclude line (.error e, m)) hm
    | ok =>
      unfold conclude
      dsimp only
      rw [proceed_withStackLimit, proceed_withStackLimit]
      refine .same m.proceed ?_
      unfold proceed
      cases m.flow <;> exact hm
  | @overflow m e v he _ hevents =>
    refine .overflow (hover he m) ?_
    rwa [events_conclude, events_conclude]
  | @stuck m e e' hm he hfull => exact .overflow (hover he _) List.prefix_rfl

/-- A turn under the lower limit is outdone by one under the greater. -/
theorem turn_outdone (h : l ≤ l') {m : Machine} (hm : m.memory.Typed) :
    Progress.Outdone l l' (m.withStackLimit l).turn (m.withStackLimit l').turn := by
  have hat (limit : Nat) : (m.withStackLimit limit).settle.program.at?
      (m.withStackLimit limit).settle.cursor = m.settle.program.at? m.settle.cursor := rfl
  rw [turn_eq, turn_eq, hat, hat]
  cases m.settle.program.at? m.settle.cursor with
  | none => exact .same (.finished (.ok ()) m.settle) hm
  | some fetched => exact conclude_outdone fetched.1 ((step_follows h fetched.2).outdone m.settle hm)

/-- A turn adds to what was printed. -/
theorem events_turn (m : Machine) : m.events <+: m.turn.machine.events := by
  rw [turn_eq]
  cases m.settle.program.at? m.settle.cursor with
  | none => exact List.prefix_rfl
  | some fetched =>
    dsimp only
    rw [events_conclude]
    exact (step_follows (Nat.le_refl 0) fetched.2).grows m.settle

/-- So does a run. -/
theorem events_runFor (m : Machine) (n : Nat) : m.events <+: (m.runFor n).machine.events := by
  induction n generalizing m with
  | zero => exact List.prefix_rfl
  | succ n ih =>
    have hturn := events_turn m
    rw [runFor]
    cases h : m.turn with
    | running u =>
      rw [h] at hturn
      exact hturn.trans (ih u)
    | finished result u =>
      rw [h] at hturn
      exact hturn

/-- Turn by turn the transcript grows. -/
theorem events_runFor_add (m : Machine) (n k : Nat) :
    (m.runFor n).machine.events <+: (m.runFor (n + k)).machine.events := by
  rw [runFor_add]
  cases m.runFor n with
  | running u => exact events_runFor u k
  | finished result u => exact List.prefix_rfl

/-- A run under the lower limit is outdone by one under the greater. -/
theorem runFor_outdone (h : l ≤ l') {m : Machine} (hm : m.memory.Typed) (n : Nat) :
    Progress.Outdone l l' ((m.withStackLimit l).runFor n) ((m.withStackLimit l').runFor n) := by
  induction n generalizing m with
  | zero => exact .same (.running m) hm
  | succ n ih =>
    have hturn := turn_outdone h hm
    rw [runFor, runFor]
    generalize (m.withStackLimit l).turn = u, (m.withStackLimit l').turn = v at hturn ⊢
    cases hturn with
    | same x hx =>
      cases x with
      | running m' => exact ih hx
      | finished result m' => exact .same (.finished result m') hx
    | overflow hu hevents =>
      obtain ⟨e, m', rfl, he⟩ := hu
      refine .overflow ⟨e, m', rfl, he⟩ ?_
      cases v with
      | running m'' => exact hevents.trans (events_runFor m'' n)
      | finished => exact hevents

/-- The stack limit cannot be noticed unless it is hit. Let a program run under a limit and under a
greater one, from a machine whose variables have values of their types, as they do in every reachable
machine. As long as there is no overflow under the smaller limit, the runs have the same result and the
machines differ in nothing but the limit. If there is one, the transcript up to there begins the
transcript under the greater limit. -/
theorem execute_withStackLimit {m : Machine} (hm : m.memory.Typed) (p : Program) {l l' : Nat}
    (h : l ≤ l') (n : Nat) :
    (¬ ((m.withStackLimit l).execute p n).Overflows →
      (m.withStackLimit l').execute p n =
        ((m.withStackLimit l).execute p n).withStackLimit l') ∧
    (((m.withStackLimit l).execute p n).Overflows → ∀ k ≥ n,
      ((m.withStackLimit l).execute p n).machine.events <+:
        ((m.withStackLimit l').execute p k).machine.events) := by
  have hrun : Progress.Outdone l l' ((m.withStackLimit l).execute p n)
      ((m.withStackLimit l').execute p n) := runFor_outdone (m := m.load p) h hm n
  have hgrows := events_runFor_add ((m.withStackLimit l').load p) n
  rw [← execute] at hgrows
  generalize (m.withStackLimit l).execute p n = x at hrun ⊢
  refine ⟨fun hx => ?_, fun hx k hk => ?_⟩
  · generalize (m.withStackLimit l').execute p n = y at hrun ⊢
    cases hrun with
    | same z hz => cases z <;> rfl
    | overflow hover => exact absurd hover hx
  · obtain ⟨k, rfl⟩ := Nat.exists_eq_add_of_le hk
    refine List.IsPrefix.trans ?_ (hgrows k)
    generalize (m.withStackLimit l').execute p n = y at hrun ⊢
    cases hrun with
    | same z hz => cases z <;> exact List.prefix_rfl
    | overflow _ hevents => exact hevents

/-- A program that calls itself without end. -/
def endlessCalls : Program where
  lines := [{ number := 10, statements := [.print [.literal (.text "A")] true, .jump .gosub 10] }]

/-- The machine that runs it after some turns, with room for one call. -/
def inEndlessCalls (steps statement : Nat) (events : Array Event) (returns : List Nat) : Machine :=
  { (new {} 0 1).load endlessCalls with
    console := { calls := events.size, events }
    steps
    cursor := { statement }
    returns := { limit := 1, items := returns } }

/-- Subroutines that never return, under two limits. -/
theorem execute_withStackLimit_endlessCalls :
    (new {} 0 1).memory.Typed ∧
      ¬ (((new {} 0 1).withStackLimit 1).execute endlessCalls 3).Overflows ∧
      ((new {} 0 1).withStackLimit 2).execute endlessCalls 3 =
        .running ((inEndlessCalls 3 1 #[.printLine "A", .printLine "A"] [1]).withStackLimit 2) ∧
      (((new {} 0 1).withStackLimit 1).execute endlessCalls 4).Overflows ∧
      ∀ k ≥ 4, [.printLine "A", .printLine "A"] <+:
        (((new {} 0 1).withStackLimit 2).execute endlessCalls k).machine.events := by
  have htyped : (new {} 0 1).memory.Typed := (Reachable.new {} 0 1 default {}).typed
  have hstart : ((new {} 0 1).withStackLimit 1).load endlessCalls = inEndlessCalls 0 0 #[] [] := rfl
  have hprint : (inEndlessCalls 0 0 #[] []).turn =
      .running (inEndlessCalls 1 1 #[.printLine "A"] []) := rfl
  have hcall : (inEndlessCalls 1 1 #[.printLine "A"] []).turn =
      .running (inEndlessCalls 2 0 #[.printLine "A"] [1]) := rfl
  have hagain : (inEndlessCalls 2 0 #[.printLine "A"] [1]).turn =
      .running (inEndlessCalls 3 1 #[.printLine "A", .printLine "A"] [1]) := rfl
  have hover : (inEndlessCalls 3 1 #[.printLine "A", .printLine "A"] [1]).turn =
      .finished (.error { kind := .stackOverflow, line := some 10 })
        (inEndlessCalls 4 1 #[.printLine "A", .printLine "A"] [1]) := rfl
  have hthree : ((new {} 0 1).withStackLimit 1).execute endlessCalls 3 =
      .running (inEndlessCalls 3 1 #[.printLine "A", .printLine "A"] [1]) := by
    rw [execute, hstart, runFor, hprint]
    dsimp only
    rw [runFor, hcall]
    dsimp only
    rw [runFor, hagain]
    rfl
  have hfour : ((new {} 0 1).withStackLimit 1).execute endlessCalls 4 =
      .finished (.error { kind := .stackOverflow, line := some 10 })
        (inEndlessCalls 4 1 #[.printLine "A", .printLine "A"] [1]) := by
    rw [execute, runFor_succ_of_running hthree, hover]
  have hquiet : ¬ (((new {} 0 1).withStackLimit 1).execute endlessCalls 3).Overflows := by
    rw [hthree]
    rintro ⟨e, m, h, -⟩
    cases h
  have hoverflows : (((new {} 0 1).withStackLimit 1).execute endlessCalls 4).Overflows :=
    ⟨_, _, hfour, rfl⟩
  have hlimit : 1 ≤ 2 := by decide
  have hsame := (execute_withStackLimit htyped endlessCalls hlimit 3).1 hquiet
  have hbegins := (execute_withStackLimit htyped endlessCalls hlimit 4).2 hoverflows
  rw [hthree] at hsame
  rw [hfour] at hbegins
  exact ⟨htyped, hquiet, hsame, hoverflows, hbegins⟩

end CommodoreBasic.Machine
