import CommodoreBasic.Proofs.FreshStart

/-!
# Subroutines nest like brackets

Three requests concern the lines to come back to: GOSUB adds one, RETURN takes the last one off, and
RUN forgets them all. A turn asks for at most one of the three, as the last thing that its statement
does, and otherwise leaves the lines alone. So the lines to come back to can be told from the history
of the requests that succeeded: as long as no RUN is in it, and no initial part of it has more
RETURNs than GOSUBs, what was on the stack at its start is still there.
-/

namespace CommodoreBasic

open CommodoreBasic.Action

/-- What may happen to the lines to come back to. -/
inductive Bracket where
  | gosub
  | comeBack
  | run
deriving DecidableEq, Repr

/-- The bracket that a request asks for. -/
def Request.bracket? {a : Answer} : Request a → Option Bracket
  | .jump .gosub _ => some .gosub
  | .comeBack => some .comeBack
  | .run _ => some .run
  | _ => none

/-- The bracket that a request asked for and got. -/
def Entry.bracket? (e : Entry) : Option Bracket :=
  match e.result with
  | .ok _ => e.request.bracket?
  | .error _ => none

/-- The call that was made before this history is still open: the machine has not started over, and
at no time had there been more RETURNs than GOSUBs. The newest comes first. -/
def Bracket.Within (history : List Bracket) : Prop :=
  .run ∉ history ∧ ∀ h, h <:+ history → h.count .comeBack ≤ h.count .gosub

/-- The RETURN that ends a call finds no other call open. -/
theorem Bracket.eq_zero_of_not_within {history : List Bracket} {depth : Nat}
    (h : Bracket.Within history) (hclosed : ¬ Bracket.Within (.comeBack :: history))
    (hcount : depth + history.count .comeBack = history.count .gosub) : depth = 0 := by
  by_contra hdepth
  refine hclosed ⟨by simpa using h.1, fun t ht => ?_⟩
  obtain rfl | ht := List.suffix_cons_iff.mp ht
  · rw [List.count_cons_self, List.count_cons_of_ne (by decide)]
    omega
  · exact h.2 t ht

/-- The part of a history since the machine started over. -/
def Bracket.sinceRun (history : List Bracket) : List Bracket := history.takeWhile (· != .run)

/-- What is no RUN belongs to the history since the last one. -/
theorem Bracket.sinceRun_cons {b : Bracket} (hb : (b != .run) = true) (history : List Bracket) :
    sinceRun (b :: history) = b :: sinceRun history := List.takeWhile_cons_of_pos hb

/-- A record changes nothing in what comes of a statement. -/
theorem Statement.exec_recording {σ : Type} (h : Handler σ) (s : Statement) (patience : Nat) (m : σ)
    (entries : Array Entry) :
    s.exec h patience m = ((s.exec h.recording patience (m, entries)).1,
      (s.exec h.recording patience (m, entries)).2.1) := by
  have hask : Handler.AgreeOn s.mayAsk (fun (m : σ) x => m = x.1) h h.recording := by
    rintro a r - m ⟨_, entries⟩ rfl
    exact ⟨rfl, rfl⟩
  obtain ⟨hresult, hstate⟩ := s.exec_agree patience hask m (m, entries) rfl
  exact Prod.ext hresult hstate

namespace Machine

variable {α : Type} {m : Machine}

/-! ## Single requests -/

/-- A line is found, or it is undefined. -/
theorem findLine_cases (n : LineNumber) (m : Machine) :
    (∃ i, findLine n m = (.ok i, m)) ∨ findLine n m = (raise .undefinedStatement, m) := by
  unfold findLine
  cases m.program.indexOf? n with
  | none => exact .inr rfl
  | some i => exact .inl ⟨i, rfl⟩

/-- GOSUB remembers the line behind it, or fails and changes nothing. -/
theorem gosub_cases (n : LineNumber) (m : Machine) :
    (∃ e, gosub n m = (.error e, m)) ∨
      ∃ i returns, m.returns.push (m.cursor.line + 1) = .ok returns ∧
        gosub n m = (.ok (), { m with returns }.jumpToLine i) := by
  unfold gosub
  obtain ⟨i, hfind⟩ | hfind := findLine_cases n m
  · rw [bind_of_ok hfind, enterSubroutine]
    cases hpush : m.returns.push (m.cursor.line + 1) with
    | error e => exact .inl ⟨e, rfl⟩
    | ok returns => exact .inr ⟨i, returns, rfl, rfl⟩
  · exact .inl ⟨_, bind_of_error hfind⟩

/-- RETURN goes back to the last line remembered, or there is none. -/
theorem comeBack_cases (m : Machine) :
    (m.returns.items = [] ∧ comeBack m = (raise .returnWithoutGosub, m)) ∨
      ∃ i rest, m.returns.items = i :: rest ∧
        comeBack m =
          (.ok (), { m with returns := { m.returns with items := rest } }.jumpToLine i) := by
  unfold comeBack Stack.pop?
  cases hitems : m.returns.items with
  | nil => exact .inl ⟨rfl, rfl⟩
  | cons i rest => exact .inr ⟨i, rest, rfl, rfl⟩

/-- RUN clears the machine, or fails and changes nothing. -/
theorem run_cases (n : Option LineNumber) (m : Machine) :
    (∃ e, run n m = (.error e, m)) ∨ ∃ i, run n m = (.ok (), m.clear.jumpToLine i) := by
  unfold run
  cases n with
  | none => exact .inr ⟨0, rfl⟩
  | some n =>
    obtain ⟨i, hfind⟩ | hfind := findLine_cases n m
    · exact .inr ⟨i, bind_of_ok hfind⟩
    · exact .inl ⟨_, bind_of_error hfind⟩

/-- Which lines there are to come back to does not depend on what simple requests change. -/
theorem insensitive_returns (m : Machine) :
    Insensitive fun u => u.returns = m.returns ∧ u.cursor = m.cursor where
  setMemory h _ := h
  setRandom h _ := h
  setDepth h _ := h
  setFunctions h _ := h
  setConsole h _ _ := h
  read := by
    intro u h
    unfold readData
    split <;> exact h

/-- Nothing but the three requests changes the lines to come back to. -/
theorem keeps_returns_perform {a : Answer} {r : Request a} (hr : r.bracket? = none) :
    Keeps Machine.returns (perform a r) := by
  intro m
  cases hsimple : r.isSimple with
  | true => exact (Quiet.request hsimple _ (insensitive_returns m) m ⟨rfl, rfl⟩).1.1
  | false =>
    cases r with
    | jump j n =>
      cases j with
      | gosub => cases hr
      | goto =>
        change (goto n m).2.returns = m.returns
        unfold goto
        obtain ⟨i, hfind⟩ | hfind := findLine_cases n m
        · rw [bind_of_ok hfind]
          rfl
        · rw [bind_of_error hfind]
    | restore | finish | skipLine => rfl
    | stop => exact Keeps.bind (fun _ => rfl) (fun _ _ => rfl) m
    | beginLoop counter start limit step =>
      obtain ⟨_, _, _, _, hstate⟩ := beginLoop_state counter start limit step m
      change (beginLoop counter start limit step m).2.returns = m.returns
      rw [hstate]
    | nextLoop counter =>
      obtain ⟨_, _, _, _, hstate⟩ := nextLoop_state counter m
      change (nextLoop counter m).2.returns = m.returns
      rw [hstate]
    | comeBack | run => cases hr
    | _ => cases hsimple

/-! ## Turns -/

/-- So far a statement has asked for nothing that concerns the lines to come back to, and the machine
is still at the statement. -/
structure Underway (m : Machine) (x : Machine × Array Entry) : Prop where
  returns : x.1.returns = m.returns
  cursor : x.1.cursor = m.cursor
  entries : ∀ e ∈ x.2, e.request.bracket? = none

/-- Simple requests leave a statement underway. -/
theorem underway_simple (m : Machine) :
    Handler.AgreeOn Request.isSimple (fun x y => x = y ∧ Underway m x) perform.recording
      perform.recording := by
  intro a r hr
  refine Agree.invariant fun ⟨u, entries⟩ hx => ?_
  have hquiet := (Quiet.request hr _ (insensitive_returns m) u ⟨hx.returns, hx.cursor⟩).1
  refine ⟨hquiet.1, hquiet.2, fun e he => ?_⟩
  obtain he | rfl := Array.mem_push.mp he
  · exact hx.entries e he
  · cases r <;> first | rfl | cases hr

/-- What comes of a statement: it has asked for none of the three requests, or one of them was the
last. -/
inductive Outcome (m : Machine) : Except Error Unit × Machine × Array Entry → Prop where
  | none {result : Except Error Unit} {u : Machine} {entries : Array Entry}
    (hreturns : u.returns = m.returns) (hentries : ∀ e ∈ entries, e.request.bracket? = .none) :
    Outcome m (result, u, entries)
  | last {r : Request .done} {x : Machine × Array Entry} (hr : r.bracket? ≠ .none)
    (hx : Underway m x) : Outcome m (perform.recording .done r x)

variable {x : Machine × Array Entry}

/-- A statement that ends while it is underway has asked for none of the three. -/
theorem Underway.outcome (hx : Underway m x) (result : Except Error Unit) :
    Outcome m (result, x) := .none hx.returns hx.entries

/-- So has one that ends with a request, or this was the last. -/
theorem Underway.request (hx : Underway m x) (r : Request .done) :
    Outcome m (perform.recording .done r x) := by
  cases hr : r.bracket? with
  | some b => exact .last (by simp [hr]) hx
  | none =>
    refine .none ((keeps_returns_perform hr x.1).trans hx.returns) fun e he => ?_
    obtain he | rfl := Array.mem_push.mp he
    · exact hx.entries e he
    · exact hr

/-- Evaluation comes before the last request. -/
theorem Underway.bind (hx : Underway m x) {y : Action (Machine × Array Entry) α}
    (hy : Agree (fun x y => x = y ∧ Underway m x) y y)
    {f : α → Action (Machine × Array Entry) Unit}
    (hf : ∀ a x, Underway m x → Outcome m (f a x)) : Outcome m ((y >>= f) x) := by
  obtain ⟨-, -, hend⟩ := hy x x ⟨rfl, hx⟩
  rw [bind_apply]
  rcases hyx : y x with ⟨_ | a, x'⟩ <;> rw [hyx] at hend
  · exact hend.outcome _
  · exact hf a x' hend

/-- A simple statement asks for none of the three. -/
theorem Underway.simple (hx : Underway m x) {s : Statement} (hs : s.isSimple = true)
    (patience : Nat) : Outcome m (s.exec perform.recording patience x) := by
  have hask : Handler.AgreeOn s.mayAsk (fun x y => x = y ∧ Underway m x) perform.recording
      perform.recording :=
    fun a r hr => underway_simple m a r (by simpa [Statement.mayAsk, hs] using hr)
  exact (s.exec_agree patience hask x x ⟨rfl, hx⟩).2.2.outcome _

/-- A statement asks for at most one of the three requests, and for that at last. -/
theorem exec_outcome (s : Statement) (patience : Nat) (hx : Underway m x) :
    Outcome m (s.exec perform.recording patience x) := by
  have heval := (underway_simple m).evaluation
  induction s generalizing x with
  | finish => exact hx.request .finish
  | loop counter start limit step =>
    refine hx.bind (Expr.evalNumber_agree heval start) fun a x hx => ?_
    refine hx.bind (Expr.evalNumber_agree heval limit) fun b x hx => ?_
    cases step with
    | none => exact hx.request (.beginLoop counter a b 1)
    | some e =>
      refine hx.bind (Expr.evalNumber_agree heval e) fun c x hx => ?_
      exact hx.request (.beginLoop counter a b c)
  | jump j line => exact hx.request (.jump j line)
  | ifThen condition s ih =>
    refine hx.bind (Expr.eval_agree heval condition) fun v x hx => ?_
    split
    · exact ih hx
    · exact hx.request .skipLine
  | next counter => exact hx.request (.nextLoop counter)
  | on selector j lines =>
    refine hx.bind (Expr.evalNumber_agree heval selector) fun v x hx => ?_
    refine hx.bind (Agree.ofExcept (Statement.chosen v lines)) fun line x hx => ?_
    cases line with
    | none => exact hx.outcome _
    | some n => exact hx.request (.jump j n)
  | restore line => exact hx.request (.restore line)
  | comeBack => exact hx.request .comeBack
  | run line => exact hx.request (.run line)
  | stop => exact hx.request .stop
  | remark => exact hx.outcome _
  | assign | data | define | dimension | input | print | read => exact hx.simple rfl patience

/-- What the next turn asks for, if it carries out a statement. -/
def asked (m : Machine) : List Entry :=
  match m.fetch? with
  | none => []
  | some (_, s) =>
    if m.stepLimit.any (· < m.steps + 1) then []
    else (s.exec perform.recording m.counted.patience (m.counted, #[])).2.2.toList

/-- What the next turn does to the lines to come back to. -/
def brackets (m : Machine) : List Bracket := m.asked.filterMap Entry.bracket?

/-- What a statement comes to leaves the subroutines as they are. -/
theorem returns_conclude (line : Line) (x : Except Error Unit × Machine) :
    (conclude line x).machine.returns = x.2.returns := by
  obtain ⟨_ | ⟨⟨⟩⟩, u⟩ := x
  · rfl
  · unfold conclude proceed
    dsimp only
    cases u.flow <;> rfl

/-- A turn asks for none of the three requests and leaves the lines alone, or it ends with the one that
it asks for, which finds them as they were. -/
theorem asked_cases (m : Machine) :
    ((∀ e ∈ m.asked, e.request.bracket? = none) ∧ m.turn.machine.returns = m.returns) ∨
      ∃ (line : Line) (r : Request .done) (u : Machine) (entries : List Entry),
        r.bracket? ≠ none ∧ (∀ e ∈ entries, e.request.bracket? = none) ∧ u.returns = m.returns ∧
          u.cursor = m.settle.cursor ∧ m.asked = entries ++ [⟨.done, r, (perform .done r u).1⟩] ∧
          m.turn = conclude line (perform .done r u) := by
  unfold asked
  cases hfetch : m.fetch? with
  | none =>
    refine .inl ⟨by simp, ?_⟩
    unfold fetch? at hfetch
    rw [turn_eq]
    cases hat : m.settle.program.at? m.settle.cursor with
    | none => rfl
    | some fetched =>
      have hbreak : m.interrupted = true := by
        by_contra hfree
        rw [if_neg hfree, hat] at hfetch
        cases hfetch
      have hbegin : beginStep m.settle =
          (raise .breakPressed, { m.settle with interrupted := false }) := if_pos hbreak
      dsimp only
      rw [step_apply, hbegin]
      rfl
  | some fetched =>
    obtain ⟨line, s⟩ := fetched
    rw [turn_of_fetch?_eq_some hfetch]
    dsimp only
    split
    · exact .inl ⟨by simp, rfl⟩
    · have hstart : Underway m.counted (m.counted, #[]) := ⟨rfl, rfl, by simp⟩
      have houtcome := exec_outcome s m.counted.patience hstart
      rw [s.exec_recording perform m.counted.patience m.counted #[]]
      generalize s.exec perform.recording m.counted.patience (m.counted, #[]) = y at houtcome ⊢
      cases houtcome with
      | none hreturns hentries =>
        refine .inl ⟨by simpa using hentries, ?_⟩
        rw [returns_conclude]
        exact hreturns
      | @last r x hr hx =>
        have hentries : ∀ e ∈ x.2.toList, e.request.bracket? = none := by simpa using hx.entries
        exact .inr ⟨line, r, x.1, x.2.toList, hr, hentries, hx.returns, hx.cursor, Array.toList_push,
          rfl⟩

/-- What a turn does to the lines to come back to: nothing, or what the one request says that
succeeded. -/
theorem turn_brackets (m : Machine) :
    (m.brackets = [] ∧ m.turn.machine.returns.items = m.returns.items) ∨
    (m.brackets = [.gosub] ∧ ∃ u, m.turn = .running u ∧
      u.returns.items = (m.settle.cursor.line + 1) :: m.returns.items) ∨
    (m.brackets = [.comeBack] ∧ ∃ i u, m.turn = .running u ∧
      m.returns.items = i :: u.returns.items ∧ u.cursor = { line := i }) ∨
    (m.brackets = [.run] ∧ ∃ u, m.turn = .running u ∧ u.returns.items = []) := by
  have hquiet {entries : List Entry} (h : ∀ e ∈ entries, e.request.bracket? = none) :
      entries.filterMap Entry.bracket? = [] := by
    refine List.filterMap_eq_nil_iff.mpr fun e he => ?_
    unfold Entry.bracket?
    split
    · exact h e he
    · rfl
  obtain ⟨hasked, hreturns⟩ | ⟨line, r, u, entries, hr, hentries, hreturns, hcursor, hasked,
    hturn⟩ := asked_cases m
  · exact .inl ⟨hquiet hasked, congrArg Stack.items hreturns⟩
  · have hbrackets : m.brackets = (Entry.bracket? ⟨.done, r, (perform .done r u).1⟩).toList := by
      rw [brackets, hasked, List.filterMap_append, hquiet hentries]
      rfl
    rw [hbrackets, hturn, ← hreturns, ← hcursor]
    cases r with
    | jump j n =>
      cases j with
      | goto => exact absurd rfl hr
      | gosub =>
        have hperform : perform .done (.jump .gosub n) u = gosub n u := rfl
        obtain ⟨e, h⟩ | ⟨i, returns, hpush, h⟩ := gosub_cases n u <;> rw [hperform, h]
        · exact .inl ⟨rfl, rfl⟩
        · exact .inr (.inl ⟨rfl, _, rfl, Stack.items_of_push hpush⟩)
    | comeBack =>
      have hperform : perform .done .comeBack u = comeBack u := rfl
      obtain ⟨-, h⟩ | ⟨i, rest, hitems, h⟩ := comeBack_cases u <;> rw [hperform, h]
      · exact .inl ⟨rfl, rfl⟩
      · exact .inr (.inr (.inl ⟨rfl, i, _, rfl, hitems, rfl⟩))
    | run n =>
      have hperform : perform .done (.run n) u = run n u := rfl
      obtain ⟨e, h⟩ | ⟨i, h⟩ := run_cases n u <;> rw [hperform, h]
      · exact .inl ⟨rfl, rfl⟩
      · exact .inr (.inr (.inr ⟨rfl, _, rfl, rfl⟩))
    | _ => exact absurd rfl hr

/-- A call adds the line after it. -/
theorem turn_of_gosub_mem (h : .gosub ∈ m.brackets) :
    ∃ u, m.turn = .running u ∧
      u.returns.items = (m.settle.cursor.line + 1) :: m.returns.items := by
  obtain ⟨hb, -⟩ | ⟨-, hturn⟩ | ⟨hb, -⟩ | ⟨hb, -⟩ := turn_brackets m
  case inr.inl => exact hturn
  all_goals
    rw [hb] at h
    simp at h

/-- A return takes the last line off and goes on there. -/
theorem turn_of_comeBack_mem (h : .comeBack ∈ m.brackets) :
    ∃ i u, m.turn = .running u ∧ m.returns.items = i :: u.returns.items ∧
      u.cursor = { line := i } := by
  obtain ⟨hb, -⟩ | ⟨hb, -⟩ | ⟨-, hturn⟩ | ⟨hb, -⟩ := turn_brackets m
  case inr.inr.inl => exact hturn
  all_goals
    rw [hb] at h
    simp at h

/-- A turn that asks to come back fails if and only if there is no line to come back to. -/
theorem turn_of_comeBack {result : Except Error Unit} (h : ⟨.done, .comeBack, result⟩ ∈ m.asked) :
    if m.returns.items = [] then
      result = raise .returnWithoutGosub ∧ ∃ line u,
        m.turn = .finished (.error { kind := .returnWithoutGosub, line := some line }) u
    else result = .ok () ∧ ∃ u, m.turn = .running u := by
  obtain ⟨hasked, -⟩ | ⟨line, r, u, entries, hr, hentries, hreturns, -, hasked, hturn⟩ :=
    asked_cases m
  · cases hasked _ h
  · rw [hasked] at h
    obtain h | h := List.mem_append.mp h
    · cases hentries _ h
    · obtain rfl : .comeBack = r := by
        cases List.mem_singleton.mp h
        rfl
      have hresult : result = (comeBack u).1 := by
        cases List.mem_singleton.mp h
        rfl
      have hperform : perform .done .comeBack u = comeBack u := rfl
      rw [hresult, hturn, ← hreturns, hperform]
      obtain ⟨hitems, h⟩ | ⟨i, rest, hitems, h⟩ := comeBack_cases u <;> rw [h, hitems]
      · exact ⟨rfl, line.number, u, rfl⟩
      · exact ⟨rfl, _, rfl⟩

/-- Behind its last line a program is over. -/
theorem turn_of_line_none (h : m.program.lines[m.cursor.line]? = none) :
    m.turn = .finished (.ok ()) m := by
  have hsettle : m.settle = m := by rw [settle, Program.settle_of_line_none h]
  have hat : m.program.at? m.cursor = none := by simp [Program.at?, h]
  rw [turn_eq, hsettle, hat]

/-! ## Runs -/

/-- What the turn after this progress does to the lines to come back to. -/
def Progress.brackets : Progress → List Bracket
  | running m => m.brackets
  | finished _ _ => []

/-- What some turns have done to the lines to come back to, the newest first. -/
def history (m : Machine) : Nat → List Bracket
  | 0 => []
  | n + 1 => (m.runFor n).brackets ++ m.history n

/-- A run that goes on has one more turn. -/
theorem runFor_succ_of_running {n : Nat} {u : Machine} (h : m.runFor n = .running u) :
    m.runFor (n + 1) = u.turn := by
  rw [runFor_add, h]
  dsimp only
  rw [runFor]
  cases u.turn <;> rfl

/-- A run that is over stays over. -/
theorem runFor_succ_of_finished {n : Nat} {u : Machine} {result : Except Error Unit}
    (h : m.runFor n = .finished result u) : m.runFor (n + 1) = .finished result u := by
  rw [runFor_add, h]

/-- While a call is open, what was on the stack before stays, below as many lines as there are calls
open within it. -/
theorem returns_runFor (n : Nat) (h : Bracket.Within (m.history n)) :
    ∃ inner, (m.runFor n).machine.returns.items = inner ++ m.returns.items ∧
      inner.length + (m.history n).count .comeBack = (m.history n).count .gosub := by
  induction n with
  | zero => exact ⟨[], rfl, rfl⟩
  | succ n ih =>
    rw [history] at h ⊢
    have hwithin : Bracket.Within (m.history n) :=
      ⟨fun hrun => h.1 (List.mem_append_right _ hrun),
        fun t ht => h.2 t (ht.trans (List.suffix_append _ _))⟩
    obtain ⟨inner, hitems, hcount⟩ := ih hwithin
    cases hrun : m.runFor n with
    | finished result u =>
      rw [runFor_succ_of_finished hrun]
      rw [hrun] at hitems
      exact ⟨inner, hitems, hcount⟩
    | running u =>
      rw [runFor_succ_of_running hrun]
      rw [hrun] at h hitems
      change u.returns.items = inner ++ m.returns.items at hitems
      dsimp only [Progress.brackets] at h ⊢
      obtain ⟨hb, hreturns⟩ | ⟨hb, v, hturn, hreturns⟩ | ⟨hb, i, v, hturn, hreturns, -⟩ | ⟨hb, -⟩ :=
        turn_brackets u <;> rw [hb] at h ⊢
      · exact ⟨inner, hreturns.trans hitems, hcount⟩
      · rw [hturn]
        refine ⟨(u.settle.cursor.line + 1) :: inner, ?_, ?_⟩
        · exact hreturns.trans (congrArg _ hitems)
        · rw [List.singleton_append, List.count_cons_self, List.count_cons_of_ne (by decide),
            List.length_cons]
          omega
      · have hle := h.2 _ List.suffix_rfl
        rw [List.singleton_append, List.count_cons_self, List.count_cons_of_ne (by decide)] at hle ⊢
        rw [hturn]
        cases inner with
        | nil =>
          rw [List.length_nil] at hcount
          omega
        | cons j inner =>
          rw [hreturns, List.cons_append] at hitems
          rw [List.length_cons] at hcount
          exact ⟨inner, (List.cons.inj hitems).2, by omega⟩
      · exact absurd (List.mem_append_left _ List.mem_cons_self) h.1

/-- If there was no line to come back to at first, there are as many as GOSUBs have succeeded and not
been matched by RETURNs since the machine started over. -/
theorem length_returns_runFor (hm : m.returns.items = []) (n : Nat) :
    (m.runFor n).machine.returns.items.length + (Bracket.sinceRun (m.history n)).count .comeBack =
      (Bracket.sinceRun (m.history n)).count .gosub := by
  induction n with
  | zero => exact congrArg (List.length · + 0) hm
  | succ n ih =>
    rw [history]
    cases hrun : m.runFor n with
    | finished result u =>
      rw [runFor_succ_of_finished hrun]
      rwa [hrun] at ih
    | running u =>
      rw [runFor_succ_of_running hrun]
      rw [hrun] at ih
      change u.returns.items.length + _ = _ at ih
      dsimp only [Progress.brackets]
      obtain ⟨hb, hreturns⟩ | ⟨hb, v, hturn, hreturns⟩ | ⟨hb, i, v, hturn, hreturns, -⟩ |
        ⟨hb, v, hturn, hreturns⟩ := turn_brackets u <;> rw [hb]
      · rwa [hreturns]
      · rw [hturn]
        change v.returns.items.length + _ = _
        rw [hreturns, List.singleton_append, Bracket.sinceRun_cons (by decide), List.count_cons_self,
          List.count_cons_of_ne (by decide), List.length_cons]
        omega
      · rw [hturn]
        change v.returns.items.length + _ = _
        rw [hreturns, List.length_cons] at ih
        rw [List.singleton_append, Bracket.sinceRun_cons (by decide), List.count_cons_self,
          List.count_cons_of_ne (by decide)]
        omega
      · rw [hturn]
        change v.returns.items.length + _ = _
        rw [hreturns]
        rfl

/-- GOSUB and RETURN nest like brackets. Let `u` be the machine after any number of turns.

If its next turn calls a subroutine, then as long as the call is open, the lines to come back to at
that time are still there, below the line after the call. The RETURN that ends the call leaves exactly
them and goes on at the start of the line after the call, where the program ends if there is no such
line.

If its next turn asks to come back, it fails for want of a call if and only if as many RETURNs as
GOSUBs have succeeded since the program started or started over. -/
theorem execute_nesting (m : Machine) (p : Program) {n : Nat} {u : Machine}
    (hu : m.execute p n = .running u) :
    (.gosub ∈ u.brackets → ∃ v, u.turn = .running v ∧ ∀ k, Bracket.Within (v.history k) →
      (∃ inner, (m.execute p (n + 1 + k)).machine.returns.items =
        inner ++ (u.settle.cursor.line + 1) :: u.returns.items) ∧
      ∀ w, m.execute p (n + 1 + k) = .running w → .comeBack ∈ w.brackets →
        ¬ Bracket.Within (.comeBack :: v.history k) →
        ∃ x, w.turn = .running x ∧ x.returns.items = u.returns.items ∧
          x.cursor = { line := u.settle.cursor.line + 1, statement := 0 } ∧
          (p.lines[u.settle.cursor.line + 1]? = none → x.turn = .finished (.ok ()) x)) ∧
    ∀ result, ⟨.done, .comeBack, result⟩ ∈ u.asked →
      (result = raise .returnWithoutGosub ↔
        (Bracket.sinceRun ((m.load p).history n)).count .comeBack =
          (Bracket.sinceRun ((m.load p).history n)).count .gosub) ∧
      (result = raise .returnWithoutGosub ↔ ∃ line w,
        u.turn = .finished (.error { kind := .returnWithoutGosub, line := some line }) w) := by
  refine ⟨fun hgosub => ?_, fun result hasked => ?_⟩
  · obtain ⟨v, hturn, hcalled⟩ := turn_of_gosub_mem hgosub
    have hlater (k : Nat) : m.execute p (n + 1 + k) = v.runFor k := by
      rw [execute, Nat.add_assoc, runFor_add, ← execute, hu, Nat.add_comm 1 k]
      dsimp only
      rw [runFor, hturn]
    refine ⟨v, hturn, fun k hwithin => ?_⟩
    obtain ⟨inner, hitems, hcount⟩ := returns_runFor k hwithin
    rw [hcalled, ← hlater] at hitems
    refine ⟨⟨inner, hitems⟩, fun w hw hback hclosed => ?_⟩
    have hlength := Bracket.eq_zero_of_not_within hwithin hclosed hcount
    obtain rfl := List.eq_nil_of_length_eq_zero hlength
    rw [hw] at hitems
    obtain ⟨i, x, hreturn, hreturned, hcursor⟩ := turn_of_comeBack_mem hback
    obtain ⟨rfl, hrest⟩ := List.cons.inj (hreturned.symm.trans hitems)
    refine ⟨x, hreturn, hrest, hcursor, fun hline => turn_of_line_none ?_⟩
    have hx : m.execute p (n + 1 + k + 1) = .running x := by
      rw [execute, runFor_succ_of_running hw, hreturn]
    rwa [(sound_of_execute hx).program, hcursor]
  · have hlength := length_returns_runFor (m := m.load p) rfl n
    rw [← execute, hu] at hlength
    have hturn := turn_of_comeBack hasked
    split at hturn
    · next hitems =>
      obtain ⟨rfl, hturn⟩ := hturn
      change u.returns.items.length + _ = _ at hlength
      rw [hitems, List.length_nil, Nat.zero_add] at hlength
      simp [hlength, hturn]
    · next hitems =>
      obtain ⟨rfl, w, hturn⟩ := hturn
      have hpos := List.length_pos_iff.mpr hitems
      change u.returns.items.length + _ = _ at hlength
      rw [hturn]
      have hresult : (.ok () : Except Error Unit) ≠ raise .returnWithoutGosub := by
        intro heq
        cases heq
      refine ⟨iff_of_false hresult (by omega), iff_of_false hresult ?_⟩
      rintro ⟨line, w', heq⟩
      cases heq

/-- A program in which one RETURN ends two calls, one within the other. -/
def sharedReturn : Program where
  lines := [
    { number := 10, statements := [.jump .gosub 20] },
    { number := 20, statements := [.jump .gosub 30] },
    { number := 30, statements := [.comeBack] }]

/-- The machine that runs it after some turns. -/
def inSharedReturn (steps line : Nat) (returns : List Nat) : Machine :=
  { (new {} 0 10).load sharedReturn with
    steps
    cursor := { line }
    returns := { limit := 10, items := returns } }

/-- The RETURN ends the inner call first and then the outer one. -/
theorem execute_nesting_sharedReturn :
    (new {} 0 10).execute sharedReturn 0 = .running (inSharedReturn 0 0 []) ∧
      .gosub ∈ (inSharedReturn 0 0 []).brackets ∧
      Bracket.Within ((inSharedReturn 1 1 [1]).history 2) ∧
      (new {} 0 10).execute sharedReturn 3 = .running (inSharedReturn 3 2 [1]) ∧
      ∃ x, (inSharedReturn 3 2 [1]).turn = .running x ∧ x.returns.items = [] ∧
        x.cursor = { line := 1, statement := 0 } := by
  have hstart : (new {} 0 10).execute sharedReturn 0 = .running (inSharedReturn 0 0 []) := rfl
  have houter : (inSharedReturn 0 0 []).turn = .running (inSharedReturn 1 1 [1]) := rfl
  have hinner : (inSharedReturn 1 1 [1]).turn = .running (inSharedReturn 2 2 [2, 1]) := rfl
  have hback : (inSharedReturn 2 2 [2, 1]).turn = .running (inSharedReturn 3 2 [1]) := rfl
  have hgosub : (inSharedReturn 0 0 []).brackets = [.gosub] := rfl
  have hhistory : (inSharedReturn 1 1 [1]).history 2 = [.comeBack, .gosub] := by
    have hnext : (inSharedReturn 1 1 [1]).runFor 1 = .running (inSharedReturn 2 2 [2, 1]) := by
      rw [runFor, hinner]
      rfl
    rw [history, history, hnext]
    rfl
  have hwithin : Bracket.Within ((inSharedReturn 1 1 [1]).history 2) := by
    rw [hhistory]
    exact ⟨by decide, by simp [List.suffix_cons_iff]⟩
  have hlater : (new {} 0 10).execute sharedReturn 3 = .running (inSharedReturn 3 2 [1]) := by
    have hstart : (new {} 0 10).load sharedReturn = inSharedReturn 0 0 [] := rfl
    rw [execute, hstart, runFor, houter]
    dsimp only
    rw [runFor, hinner]
    dsimp only
    rw [runFor, hback]
    rfl
  have hreturn : (inSharedReturn 3 2 [1]).brackets = [.comeBack] := rfl
  have hclosed : ¬ Bracket.Within (.comeBack :: (inSharedReturn 1 1 [1]).history 2) := by
    rw [hhistory]
    intro h
    exact absurd (h.2 _ List.suffix_rfl) (by decide)
  have hmem : .gosub ∈ (inSharedReturn 0 0 []).brackets := by simp [hgosub]
  obtain ⟨v, hv, hcall⟩ := (execute_nesting _ _ hstart).1 hmem
  cases houter.symm.trans hv
  obtain ⟨x, hturn, hitems, hcursor, -⟩ :=
    (hcall 2 hwithin).2 _ hlater (by simp [hreturn]) hclosed
  exact ⟨hstart, hmem, hwithin, hlater, x, hturn, hitems, hcursor⟩

end Machine

end CommodoreBasic
