import CommodoreBasic.Proofs.EvaluationFrame
import CommodoreBasic.Proofs.FreshStart
import CommodoreBasic.Statement.Nodes

/-!
# Every run with a step limit ends

Three loops could go on forever: user functions that call one another, INPUT that asks again and again,
and the search for the next statement, which passes over empty lines without counting them. The machine
bounds the first two by the room for calls and by the replies that are left. Here evaluation and INPUT
are given by rules without any bound. What can be derived from the rules is exactly what the machine
does, so the bounds cut nothing off and there always is a derivation.

The third loop is measured in rounds. A round that does not end the program counts a statement or
passes on to the next line, and neither can happen without end.
-/

namespace CommodoreBasic

open CommodoreBasic.Action

namespace Machine

variable {m u : Machine}

/-! ## Evaluation -/

mutual

/-- `Evaluates e m (result, u)`: the evaluation of `e` on the machine `m` ends with `result` and leaves
`u`. -/
inductive Evaluates : Expr → Machine → Except Error Value × Machine → Prop
  | literal {v : Value} {m : Machine} : Evaluates (.literal v) m (.ok v, m)
  | scalar {n : Name} {m : Machine} : Evaluates (.scalar n) m (.ok (m.memory.fetch n), m)
  | operandFails {e : Expr} {m u : Machine} {error : Error} :
      EvaluatesAll e.operands m (.error error, u) → Evaluates e m (.error error, u)
  | element {n : Name} {es : List Expr} {vs : List Value} {m u : Machine} :
      EvaluatesAll es m (.ok vs, u) →
      Evaluates (.element n es) m (onMemory (Memory.fetchElement n vs) u)
  | unary {op : UnaryOp} {e : Expr} {v : Value} {m u : Machine} :
      Evaluates e m (.ok v, u) → Evaluates (.unary op e) m (op.apply v, u)
  | binary {op : BinaryOp} {l r : Expr} {v w : Value} {m u x : Machine} :
      Evaluates l m (.ok v, u) → Evaluates r u (.ok w, x) →
      Evaluates (.binary op l r) m (op.apply v w, x)
  | comparison {rel : Relation} {l r : Expr} {v w : Value} {m u x : Machine} :
      Evaluates l m (.ok v, u) → Evaluates r u (.ok w, x) →
      Evaluates (.comparison rel l r) m (Value.compare rel v w, x)
  | builtin {f : Builtin} {es : List Expr} {vs : List Value} {m u : Machine} :
      EvaluatesAll es m (.ok vs, u) →
      Evaluates (.call (.builtin f) es) m (onRandom (f.apply vs) u)
  | user {f : String} {es : List Expr} {vs : List Value} {m u : Machine}
      {r : Except Error Value × Machine} :
      EvaluatesAll es m (.ok vs, u) → Calls f vs u r → Evaluates (.call (.user f) es) m r

/-- The same for expressions from left to right, up to the first that fails. -/
inductive EvaluatesAll : List Expr → Machine → Except Error (List Value) × Machine → Prop
  | nil {m : Machine} : EvaluatesAll [] m (.ok [], m)
  | headFails {e : Expr} {es : List Expr} {m u : Machine} {error : Error} :
      Evaluates e m (.error error, u) → EvaluatesAll (e :: es) m (.error error, u)
  | tailFails {e : Expr} {es : List Expr} {v : Value} {m u w : Machine} {error : Error} :
      Evaluates e m (.ok v, u) → EvaluatesAll es u (.error error, w) →
      EvaluatesAll (e :: es) m (.error error, w)
  | cons {e : Expr} {es : List Expr} {v : Value} {vs : List Value} {m u w : Machine} :
      Evaluates e m (.ok v, u) → EvaluatesAll es u (.ok vs, w) →
      EvaluatesAll (e :: es) m (.ok (v :: vs), w)

/-- `Calls f vs m (result, u)`: the call of the user function `f` ends with `result` and leaves `u`. The
body is evaluated one call deeper, with the parameter set for the time being; deeper than the stack
limit there is no call. -/
inductive Calls : String → List Value → Machine → Except Error Value × Machine → Prop
  | refused {f : String} {vs : List Value} {m : Machine} {error : Error} :
      resolveCall f vs m = (.error error, m) → Calls f vs m (.error error, m)
  | overflows {f : String} {vs : List Value} {m : Machine} {g : UserFunction} {v : Value} :
      resolveCall f vs m = (.ok (g, v), m) → m.returns.limit ≤ m.depth →
      Calls f vs m (raise .stackOverflow, m)
  | notSet {f : String} {vs : List Value} {m u : Machine} {g : UserFunction} {v : Value}
      {error : Error} :
      resolveCall f vs m = (.ok (g, v), m) → m.depth < m.returns.limit →
      onMemory (Memory.store g.parameter v) m = (.error error, u) → Calls f vs m (.error error, u)
  | notReset {f : String} {vs : List Value} {m u w x : Machine} {g : UserFunction} {v : Value}
      {result : Except Error Value} {error : Error} :
      resolveCall f vs m = (.ok (g, v), m) → m.depth < m.returns.limit →
      onMemory (Memory.store g.parameter v) m = (.ok (), u) →
      Evaluates g.body { u with depth := u.depth + 1 } (result, w) →
      onMemory (Memory.store g.parameter (m.memory.fetch g.parameter))
        { w with depth := w.depth - 1 } = (.error error, x) →
      Calls f vs m (.error error, x)
  | returns {f : String} {vs : List Value} {m u w x : Machine} {g : UserFunction} {v : Value}
      {result : Except Error Value} :
      resolveCall f vs m = (.ok (g, v), m) → m.depth < m.returns.limit →
      onMemory (Memory.store g.parameter v) m = (.ok (), u) →
      Evaluates g.body { u with depth := u.depth + 1 } (result, w) →
      onMemory (Memory.store g.parameter (m.memory.fetch g.parameter))
        { w with depth := w.depth - 1 } = (.ok (), x) →
      Calls f vs m (result, x)

end

/-- How many calls may be nested in one another from here. -/
def room (m : Machine) : Nat := m.returns.limit - m.depth

/-- A machine beside another at the same depth has as much room. -/
theorem Beside.room_eq (h : m.Beside u) (hdepth : u.depth = m.depth) : u.room = m.room := by
  rw [room, hdepth, congrArg Machine.returns h]
  rfl

/-- Evaluation leaves as much room for calls as there was. -/
theorem room_of_eval {e : Expr} {result : Except Error Value} (h : e.eval perform m = (result, u)) :
    u.room = m.room := by
  obtain ⟨-, ⟨-, hbeside⟩, hdepth⟩ := Expr.eval_agree (perform_beside m) e m m ⟨⟨rfl, rfl⟩, rfl⟩
  rw [h] at hbeside hdepth
  exact hbeside.room_eq hdepth

/-- Evaluating expressions takes no room. -/
theorem room_of_evalAll {es : List Expr} {result : Except Error (List Value)}
    (h : Expr.evalAll perform es m = (result, u)) : u.room = m.room := by
  obtain ⟨-, ⟨-, hbeside⟩, hdepth⟩ := Expr.evalAll_agree (perform_beside m) es m m ⟨⟨rfl, rfl⟩, rfl⟩
  rw [h] at hbeside hdepth
  exact hbeside.room_eq hdepth

/-- Neither does anything done to the memory. -/
theorem room_of_onMemory {α : Type} {act : Action Memory α} {result : Except Error α}
    (h : onMemory act m = (result, u)) : u.room = m.room :=
  (congrArg (fun x => x.2.room) h).symm

/-- A call takes one place. -/
theorem room_deeper (m : Machine) : room { m with depth := m.depth + 1 } = m.room - 1 :=
  Nat.sub_add_eq m.returns.limit m.depth 1

/-- The room for calls is that of the machine also within a call, so a body is evaluated as it would be
outside. -/
theorem eval_callUser (e : Expr) (m : Machine) :
    e.eval (answer (callUser m.room)) m = e.eval perform m := by
  have hask : Handler.AgreeOn Request.isEvaluation (AtDepth (fun s t => s = t ∧ m.Beside s) m.depth)
      (answer (callUser m.room)) perform := by
    rintro a r hr s _ ⟨⟨rfl, hbeside⟩, hdepth⟩
    rw [← hbeside.room_eq hdepth]
    exact perform_beside m a r hr s s ⟨⟨rfl, hbeside⟩, hdepth⟩
  obtain ⟨hresult, ⟨hstate, -⟩, -⟩ := Expr.eval_agree hask e m m ⟨⟨rfl, rfl⟩, rfl⟩
  exact Prod.ext hresult hstate

/-- An expression with a list of operands is evaluated once these are. -/
theorem evaluates_of_list {e : Expr} {es : List Expr} {next : List Value → Action Machine Value}
    (hoperands : e.operands = es) (hes : EvaluatesAll es m (Expr.evalAll perform es m))
    (hnext : ∀ vs u, u.room = m.room → EvaluatesAll es m (.ok vs, u) → Evaluates e m (next vs u)) :
    Evaluates e m ((Expr.evalAll perform es >>= next) m) := by
  rcases heq : Expr.evalAll perform es m with ⟨error | vs, u⟩ <;> rw [heq] at hes
  · rw [bind_of_error heq]
    exact .operandFails (hoperands ▸ hes)
  · rw [bind_of_ok heq]
    exact hnext vs u (room_of_evalAll heq) hes

/-- An expression with two operands is evaluated once these are, the right one on a machine that has
the same room for calls. -/
theorem evaluates_of_pair {e l r : Expr} {f : Value → Value → Except Error Value}
    (hoperands : e.operands = [l, r]) (hl : Evaluates l m (l.eval perform m))
    (hr : ∀ u, u.room = m.room → Evaluates r u (r.eval perform u))
    (hf : ∀ v w u x, Evaluates l m (.ok v, u) → Evaluates r u (.ok w, x) → Evaluates e m (f v w, x)) :
    Evaluates e m ((l.eval perform >>= fun v => r.eval perform >>= fun w =>
      Action.ofExcept (f v w)) m) := by
  rcases heq : l.eval perform m with ⟨error | v, u⟩ <;> rw [heq] at hl
  · rw [bind_of_error heq]
    exact .operandFails (hoperands ▸ .headFails hl)
  · have hr' := hr u (room_of_eval heq)
    rw [bind_of_ok heq]
    rcases heq' : r.eval perform u with ⟨error | w, u'⟩ <;> rw [heq'] at hr'
    · rw [bind_of_error heq']
      exact .operandFails (hoperands ▸ .tailFails hl (.headFails hr'))
    · rw [bind_of_ok heq']
      exact hf v w u u' hl hr'

mutual

/-- Every evaluation ends if every call does that has the same room. -/
theorem evaluates_of_calls {room : Nat}
    (hcall : ∀ f vs (m : Machine), m.room = room → Calls f vs m (callUser room f vs m))
    (e : Expr) (m : Machine) (hroom : m.room = room) : Evaluates e m (e.eval perform m) := by
  match e with
  | .literal v => exact .literal
  | .scalar n => exact .scalar
  | .element n es =>
    exact evaluates_of_list rfl (evaluatesAll_of_calls hcall es m hroom) fun vs u _ hes => .element hes
  | .unary op e =>
    have he := evaluates_of_calls hcall e m hroom
    rw [Expr.eval]
    rcases heq : e.eval perform m with ⟨error | v, u⟩ <;> rw [heq] at he
    · rw [bind_of_error heq]
      exact .operandFails (.headFails he)
    · rw [bind_of_ok heq]
      exact .unary he
  | .binary op l r =>
    exact evaluates_of_pair rfl (evaluates_of_calls hcall l m hroom)
      (fun u hu => evaluates_of_calls hcall r u (hu.trans hroom)) fun _ _ _ _ => .binary
  | .comparison rel l r =>
    exact evaluates_of_pair rfl (evaluates_of_calls hcall l m hroom)
      (fun u hu => evaluates_of_calls hcall r u (hu.trans hroom)) fun _ _ _ _ => .comparison
  | .call (.builtin f) es =>
    exact evaluates_of_list rfl (evaluatesAll_of_calls hcall es m hroom) fun vs u _ hes => .builtin hes
  | .call (.user f) es =>
    refine evaluates_of_list rfl (evaluatesAll_of_calls hcall es m hroom) fun vs u hu hes => ?_
    have hends := hcall f vs u (hu.trans hroom)
    rw [← hu.trans hroom] at hends
    exact .user hes hends

/-- The same of a list of expressions. -/
theorem evaluatesAll_of_calls {room : Nat}
    (hcall : ∀ f vs (m : Machine), m.room = room → Calls f vs m (callUser room f vs m))
    (es : List Expr) (m : Machine) (hroom : m.room = room) :
    EvaluatesAll es m (Expr.evalAll perform es m) := by
  match es with
  | [] => exact .nil
  | e :: es =>
    have he := evaluates_of_calls hcall e m hroom
    rw [Expr.evalAll]
    rcases heq : e.eval perform m with ⟨error | v, u⟩ <;> rw [heq] at he
    · rw [bind_of_error heq]
      exact .headFails he
    · have hes := evaluatesAll_of_calls hcall es u ((room_of_eval heq).trans hroom)
      rw [bind_of_ok heq]
      rcases heq' : Expr.evalAll perform es u with ⟨error | vs, u'⟩ <;> rw [heq'] at hes
      · rw [bind_of_error heq']
        exact .tailFails he hes
      · rw [bind_of_ok heq']
        exact .cons he hes

end

/-- What is done inside a call is done one level deeper. -/
theorem nested_of {α : Type} {act : Action Machine α} {result : Except Error α}
    (h : act { m with depth := m.depth + 1 } = (result, u)) :
    nested act m = (result, { u with depth := u.depth - 1 }) := by
  rw [nested, h]

/-- A call that is not refused and has room evaluates the body with its parameter set. -/
theorem callUser_of_free {f : String} {vs : List Value} {g : UserFunction} {v : Value}
    (hcall : resolveCall f vs m = (.ok (g, v), m)) (hfree : m.depth < m.returns.limit) :
    callUser m.room f vs m = withVariable g.parameter v (nested (g.body.eval perform)) m := by
  obtain ⟨room, hroom⟩ : ∃ room, m.room = room + 1 :=
    ⟨m.room - 1, (Nat.sub_add_cancel (Nat.sub_pos_of_lt hfree)).symm⟩
  rw [hroom, callUser, bind_of_ok hcall]
  dsimp only [withVariable]
  rcases hset : onMemory (Memory.store g.parameter v) m with ⟨error | ⟨⟨⟩⟩, u⟩
  · rfl
  · have hdeeper : room = Machine.room { u with depth := u.depth + 1 } := by
      rw [room_deeper, room_of_onMemory hset, hroom, Nat.add_sub_cancel]
    have heval : nested (g.body.eval (answer (callUser room))) u =
        nested (g.body.eval perform) u := by
      rw [nested, nested, hdeeper, eval_callUser]
    dsimp only
    rw [heval]

/-- A call that is refused changes nothing. -/
theorem callUser_of_refused {f : String} {vs : List Value} {error : Error}
    (hcall : resolveCall f vs m = (.error error, m)) (room : Nat) :
    callUser room f vs m = (.error error, m) := by
  cases room with
  | zero => exact bind_of_error hcall
  | succ room => exact bind_of_error hcall

/-- Every call ends. The induction is on the room for calls, as a body may call any function. -/
theorem calls_callUser (f : String) (vs : List Value) (m : Machine) :
    Calls f vs m (callUser m.room f vs m) := by
  induction hroom : m.room generalizing f vs m with
  | zero =>
    obtain ⟨error, hcall⟩ | ⟨g, v, -, hcall⟩ := resolveCall_cases f vs m
    · rw [callUser_of_refused hcall]
      exact .refused hcall
    · rw [callUser, bind_of_ok hcall]
      exact .overflows hcall (Nat.le_of_sub_eq_zero hroom)
  | succ room ih =>
    obtain ⟨error, hcall⟩ | ⟨g, v, -, hcall⟩ := resolveCall_cases f vs m
    · rw [callUser_of_refused hcall]
      exact .refused hcall
    have hfree : m.depth < m.returns.limit := Nat.lt_of_sub_eq_succ hroom
    rw [← hroom, callUser_of_free hcall hfree, withVariable]
    rcases hset : onMemory (Memory.store g.parameter v) m with ⟨error | ⟨⟨⟩⟩, u⟩
    · exact .notSet hcall hfree hset
    have hdeeper : Machine.room { u with depth := u.depth + 1 } = room := by
      rw [room_deeper, room_of_onMemory hset, hroom, Nat.add_sub_cancel]
    have hbody := evaluates_of_calls ih g.body { u with depth := u.depth + 1 } hdeeper
    rcases heval : g.body.eval perform { u with depth := u.depth + 1 } with ⟨result, w⟩
    rw [heval] at hbody
    dsimp only
    rw [nested_of heval]
    dsimp only
    rcases hreset : onMemory (Memory.store g.parameter (m.memory.fetch g.parameter))
      { w with depth := w.depth - 1 } with ⟨error | ⟨⟨⟩⟩, x⟩
    · exact .notReset hcall hfree hset hbody hreset
    · exact .returns hcall hfree hset hbody hreset

/-- An expression fails if one of its operands does. -/
theorem eval_of_operandFails {e : Expr} {error : Error}
    (h : Expr.evalAll perform e.operands m = (.error error, u)) :
    e.eval perform m = (.error error, u) := by
  have hpair (l r : Expr) (f : Value → Value → Except Error Value)
      (h : Expr.evalAll perform [l, r] m = (.error error, u)) :
      (l.eval perform >>= fun v => r.eval perform >>= fun w => Action.ofExcept (f v w)) m =
        (.error error, u) := by
    rw [Expr.evalAll] at h
    rcases hl : l.eval perform m with ⟨_ | v, u'⟩
    · rw [bind_of_error hl] at h ⊢
      cases h
      rfl
    rw [bind_of_ok hl] at h ⊢
    rcases hr : r.eval perform u' with ⟨error' | w, x⟩
    · have hright : Expr.evalAll perform [r] u' = (.error error', x) := bind_of_error hr
      rw [bind_of_error hright] at h
      rw [bind_of_error hr]
      cases h
      rfl
    · have hright : Expr.evalAll perform [r] u' = (.ok [w], x) := bind_of_ok hr
      rw [bind_of_ok hright] at h
      cases h
  cases e with
  | literal v => cases h
  | scalar n => cases h
  | element n es => exact bind_of_error h
  | unary op e =>
    rw [Expr.operands, Expr.evalAll] at h
    rcases he : e.eval perform m with ⟨_ | v, u'⟩
    · rw [bind_of_error he] at h
      rw [Expr.eval, bind_of_error he]
      cases h
      rfl
    · rw [bind_of_ok he] at h
      cases h
  | binary op l r => exact hpair l r op.apply h
  | comparison rel l r => exact hpair l r (Value.compare rel) h
  | call c es => exact bind_of_error h

mutual

/-- What the rules derive is what the machine does. -/
theorem eval_of_evaluates {e : Expr} {m : Machine} {r : Except Error Value × Machine}
    (h : Evaluates e m r) : e.eval perform m = r := by
  match h with
  | .literal => rfl
  | .scalar => rfl
  | .operandFails hes => exact eval_of_operandFails (evalAll_of_evaluatesAll hes)
  | .element hes =>
    rw [Expr.eval, bind_of_ok (evalAll_of_evaluatesAll hes)]
    rfl
  | .unary he =>
    rw [Expr.eval, bind_of_ok (eval_of_evaluates he)]
    rfl
  | .binary hl hr =>
    rw [Expr.eval, bind_of_ok (eval_of_evaluates hl), bind_of_ok (eval_of_evaluates hr)]
    rfl
  | .comparison hl hr =>
    rw [Expr.eval, bind_of_ok (eval_of_evaluates hl), bind_of_ok (eval_of_evaluates hr)]
    rfl
  | .builtin hes =>
    rw [Expr.eval, bind_of_ok (evalAll_of_evaluatesAll hes)]
    rfl
  | .user hes hcall =>
    rw [Expr.eval, bind_of_ok (evalAll_of_evaluatesAll hes)]
    exact callUser_of_calls hcall

/-- The same of a list of expressions. -/
theorem evalAll_of_evaluatesAll {es : List Expr} {m : Machine}
    {r : Except Error (List Value) × Machine} (h : EvaluatesAll es m r) :
    Expr.evalAll perform es m = r := by
  match h with
  | .nil => rfl
  | .headFails he => rw [Expr.evalAll, bind_of_error (eval_of_evaluates he)]
  | .tailFails he hes =>
    rw [Expr.evalAll, bind_of_ok (eval_of_evaluates he), bind_of_error (evalAll_of_evaluatesAll hes)]
  | .cons he hes =>
    rw [Expr.evalAll, bind_of_ok (eval_of_evaluates he), bind_of_ok (evalAll_of_evaluatesAll hes)]
    rfl

/-- The same of a call. -/
theorem callUser_of_calls {f : String} {vs : List Value} {m : Machine}
    {r : Except Error Value × Machine} (h : Calls f vs m r) : callUser m.room f vs m = r := by
  match h with
  | .refused hcall => exact callUser_of_refused hcall m.room
  | .overflows hcall hfull =>
    rw [room, Nat.sub_eq_zero_of_le hfull, callUser, bind_of_ok hcall]
    rfl
  | .notSet hcall hfree hset =>
    rw [callUser_of_free hcall hfree, withVariable, hset]
  | .notReset hcall hfree hset hbody hreset =>
    rw [callUser_of_free hcall hfree, withVariable, hset]
    dsimp only
    rw [nested_of (eval_of_evaluates hbody)]
    dsimp only
    rw [hreset]
  | .returns hcall hfree hset hbody hreset =>
    rw [callUser_of_free hcall hfree, withVariable, hset]
    dsimp only
    rw [nested_of (eval_of_evaluates hbody)]
    dsimp only
    rw [hreset]

end

/-- The evaluation of an expression ends, in exactly one way. -/
theorem evaluates_iff {e : Expr} {r : Except Error Value × Machine} :
    Evaluates e m r ↔ e.eval perform m = r := by
  refine ⟨eval_of_evaluates, ?_⟩
  rintro rfl
  exact evaluates_of_calls (fun f vs u hu => hu ▸ calls_callUser f vs u) e m rfl

/-! ## INPUT -/

/-- `Inputs targets first asked fields m (result, u)`: INPUT, which asks `asked` next and has got `fields`
so far in this round, ends with `result` and leaves `u`. It assigns as soon as the fields of a round suit
the targets; unless the device fails, it ends otherwise only when it asks and no reply is left. -/
inductive Inputs (targets : List Target) (first : String) :
    String → List Field → Machine → Except Error Unit × Machine → Prop
  | pastEnd {asked : String} {fields : List Field} {m u : Machine} :
      m.console.replies = [] → perform .line (.ask asked) m = (raise .inputPastEnd, u) →
      Inputs targets first asked fields m (raise .inputPastEnd, u)
  | deviceFails {asked : String} {fields : List Field} {m u : Machine} :
      perform .line (.ask asked) m = (raise .deviceNotPresent, u) →
      Inputs targets first asked fields m (raise .deviceNotPresent, u)
  | further {asked reply : String} {fields : List Field} {m u : Machine}
      {r : Except Error Unit × Machine} :
      perform .line (.ask asked) m = (.ok reply, u) →
      (fields ++ Field.split reply).length < targets.length →
      Inputs targets first furtherQuestion (fields ++ Field.split reply) u r →
      Inputs targets first asked fields m r
  | redoFails {asked reply : String} {fields : List Field} {m u w : Machine} {error : Error} :
      perform .line (.ask asked) m = (.ok reply, u) →
      targets.length ≤ (fields ++ Field.split reply).length →
      Field.valuesFor? targets (fields ++ Field.split reply) = none →
      perform .done (.printLine "?REDO FROM START") u = (.error error, w) →
      Inputs targets first asked fields m (.error error, w)
  | redo {asked reply : String} {fields : List Field} {m u w : Machine}
      {r : Except Error Unit × Machine} :
      perform .line (.ask asked) m = (.ok reply, u) →
      targets.length ≤ (fields ++ Field.split reply).length →
      Field.valuesFor? targets (fields ++ Field.split reply) = none →
      perform .done (.printLine "?REDO FROM START") u = (.ok (), w) →
      Inputs targets first first [] w r → Inputs targets first asked fields m r
  | assigns {asked reply : String} {fields : List Field} {m u : Machine} {vs : List Value} :
      perform .line (.ask asked) m = (.ok reply, u) →
      targets.length ≤ (fields ++ Field.split reply).length →
      Field.valuesFor? targets (fields ++ Field.split reply) = some vs →
      Inputs targets first asked fields m
        ((do
          Target.storeAll perform targets vs
          if targets.length < (fields ++ Field.split reply).length then
            perform .done (.printLine "?EXTRA IGNORED")) u)

/-- A question takes a reply, or finds that there is none, or fails with the device. -/
theorem ask_cases (asked : String) (m : Machine) :
    (∃ u, m.console.replies = [] ∧ perform .line (.ask asked) m = (raise .inputPastEnd, u)) ∨
      (∃ u, perform .line (.ask asked) m = (raise .deviceNotPresent, u)) ∨
      ∃ reply u, perform .line (.ask asked) m = (.ok reply, u) ∧ m.patience = u.patience + 1 := by
  change (∃ u, _ ∧ onConsole (Console.ask asked) m = _) ∨
    (∃ u, onConsole (Console.ask asked) m = _) ∨ ∃ reply u, onConsole (Console.ask asked) m = _ ∧ _
  dsimp only [onConsole, Console.ask, Console.call]
  by_cases habsent : m.console.absent (m.console.calls + 1)
  · rw [if_pos habsent]
    exact .inr (.inl ⟨_, rfl⟩)
  · rw [if_neg habsent]
    match hreplies : m.console.replies with
    | [] => exact .inl ⟨_, rfl, rfl⟩
    | .unreadable :: rest => exact .inr (.inl ⟨_, rfl⟩)
    | .line text :: rest =>
      refine .inr (.inr ⟨text, _, rfl, ?_⟩)
      rw [patience, hreplies]
      rfl

/-- A question that is answered takes a reply. -/
theorem patience_of_ask {asked reply : String} (h : perform .line (.ask asked) m = (.ok reply, u)) :
    m.patience = u.patience + 1 := by
  obtain ⟨u', -, hask⟩ | ⟨u', hask⟩ | ⟨reply', u', hask, hu⟩ := ask_cases asked m <;> rw [h] at hask <;>
    cases hask
  exact hu

/-- Printing takes no reply. -/
theorem patience_of_printLine {text : String} {result : Except Error Unit}
    (h : perform .done (.printLine text) m = (result, u)) : u.patience = m.patience := by
  have hreplies : (onConsole (Console.printLine text) m).2.console.replies = m.console.replies := by
    dsimp only [onConsole, Console.printLine, Console.call]
    split <;> rfl
  have hu : (onConsole (Console.printLine text) m).2 = u := congrArg Prod.snd h
  rw [patience, ← hu, hreplies]
  rfl

section Input

variable {targets : List Target} {first : String}

/-- INPUT ends. The induction is on the replies that are left. -/
theorem inputs_inputFrom (asked : String) (fields : List Field) (m : Machine) :
    Inputs targets first asked fields m
      (inputFrom perform targets first m.patience asked fields m) := by
  induction hpatience : m.patience generalizing asked fields m with
  | zero => cases hpatience
  | succ n ih =>
    rw [inputFrom]
    obtain ⟨u, hnone, hask⟩ | ⟨u, hask⟩ | ⟨reply, u, hask, hu⟩ := ask_cases asked m
    · rw [bind_of_error hask]
      exact .pastEnd hnone hask
    · rw [bind_of_error hask]
      exact .deviceFails hask
    rw [bind_of_ok hask]
    have hn : u.patience = n := by omega
    by_cases hshort : (fields ++ Field.split reply).length < targets.length
    · rw [if_pos hshort]
      exact .further hask hshort (ih _ _ u hn)
    rw [if_neg hshort]
    have henough := Nat.le_of_not_lt hshort
    cases hvalues : Field.valuesFor? targets (fields ++ Field.split reply) with
    | some vs => exact .assigns hask henough hvalues
    | none =>
      dsimp only
      rcases hprint : perform .done (.printLine "?REDO FROM START") u with ⟨error | ⟨⟨⟩⟩, w⟩
      · rw [bind_of_error hprint]
        exact .redoFails hask henough hvalues hprint
      · rw [bind_of_ok hprint]
        exact .redo hask henough hvalues hprint (ih _ _ w ((patience_of_printLine hprint).trans hn))

/-- What the rules derive is what INPUT does. -/
theorem inputFrom_of_inputs {asked : String} {fields : List Field} {r : Except Error Unit × Machine}
    (h : Inputs targets first asked fields m r) :
    inputFrom perform targets first m.patience asked fields m = r := by
  induction h with
  | pastEnd hnone hask => exact bind_of_error hask
  | deviceFails hask => exact bind_of_error hask
  | further hask hshort _ ih =>
    rw [patience_of_ask hask, inputFrom, bind_of_ok hask, if_pos hshort]
    exact ih
  | redoFails hask henough hvalues hprint =>
    rw [patience_of_ask hask, inputFrom, bind_of_ok hask, if_neg (Nat.not_lt.mpr henough), hvalues]
    exact bind_of_error hprint
  | redo hask henough hvalues hprint _ ih =>
    rw [patience_of_ask hask, inputFrom, bind_of_ok hask, if_neg (Nat.not_lt.mpr henough), hvalues,
      ← patience_of_printLine hprint, ← ih]
    exact bind_of_ok hprint
  | assigns hask henough hvalues =>
    rw [patience_of_ask hask, inputFrom, bind_of_ok hask, if_neg (Nat.not_lt.mpr henough), hvalues]

/-- INPUT ends, in exactly one way. -/
theorem inputs_iff {prompt : Option String} {t : Target} {ts : List Target}
    {r : Except Error Unit × Machine} :
    Inputs (t :: ts) (question prompt) (question prompt) [] m r ↔
      (Statement.input prompt (t :: ts)).exec perform m.patience m = r := by
  refine ⟨inputFrom_of_inputs, ?_⟩
  rintro rfl
  exact inputs_inputFrom (question prompt) [] m

end Input

/-! ## Rounds -/

variable {k : Nat}

/-- A statement changes neither the program nor the count of statements nor its limit. -/
theorem conclude_keeps (m : Machine) (line : Line) (s : Statement) :
    (conclude line (s.exec perform m.patience m)).machine.program = m.program ∧
      (conclude line (s.exec perform m.patience m)).machine.count = m.count := by
  have hagree := (lockstep_withStepLimit m none).conclude identity_lawful line s
  generalize conclude line (s.exec perform m.patience m) = x,
    conclude _ (Statement.exec perform _ _ (m.withStepLimit none)) = y at hagree ⊢
  cases x <;> cases y
  case running.running => exact ⟨hagree.1, hagree.2.1⟩
  case finished.finished => exact ⟨hagree.2.1, hagree.2.2.1⟩
  all_goals cases hagree

/-- A statement that is carried out is counted, and there may be another. -/
theorem conclude_step_cases {line : Line} {s : Statement} (hlimit : m.stepLimit = some k)
    (h : conclude line (step s m) = .running u) :
    u.program = m.program ∧ u.count = (m.steps + 1, some k) ∧ m.steps < k := by
  rw [step_apply, beginStep] at h
  by_cases hbreak : m.interrupted = true
  · rw [if_pos hbreak] at h
    cases h
  rw [if_neg hbreak] at h
  dsimp only at h
  by_cases hover : m.stepLimit.any (· < m.steps + 1) = true
  · rw [if_pos hover] at h
    cases h
  rw [if_neg hover] at h
  have hkeeps := conclude_keeps (advanceClock { m with steps := m.steps + 1 }) line s
  dsimp only at h
  rw [h] at hkeeps
  rw [hlimit, Option.any_some, decide_eq_true_eq] at hover
  exact ⟨hkeeps.1, hkeeps.2.trans (congrArg _ hlimit), by omega⟩

/-- A round that does not end the program passes on to the next line, if there is one, or counts a
statement, if there may be another. -/
theorem round_cases (hlimit : m.stepLimit = some k) (h : m.round = .running u) :
    u.program = m.program ∧ u.stepLimit = some k ∧
      (u.steps = m.steps ∧ u.cursor.line = m.cursor.line + 1 ∧
          m.cursor.line < m.program.lines.length ∨
        u.steps = m.steps + 1 ∧ m.steps < k) := by
  unfold round at h
  cases hline : m.program.lines[m.cursor.line]? with
  | none =>
    rw [hline] at h
    cases h
  | some line =>
    rw [hline] at h
    dsimp only at h
    cases hget : line.statements[m.cursor.statement]? with
    | none =>
      rw [hget] at h
      cases h
      exact ⟨rfl, hlimit, .inl ⟨rfl, rfl, (List.getElem?_eq_some_iff.mp hline).1⟩⟩
    | some s =>
      rw [hget] at h
      obtain ⟨hprogram, hcount, hlt⟩ := conclude_step_cases hlimit h
      exact ⟨hprogram, congrArg Prod.snd hcount, .inr ⟨congrArg Prod.fst hcount, hlt⟩⟩

/-- How many rounds are left at most that do not end the program, with the step limit `k`. -/
def roundsLeft (k : Nat) (m : Machine) : Nat :=
  (k - m.steps) * (m.program.lines.length + 2) + (m.program.lines.length + 1 - m.cursor.line)

/-- Passing on to a line makes the second summand smaller. Counting a statement may set it back, but
to less than the first one loses. -/
theorem roundsLeft_lt (hlimit : m.stepLimit = some k) (h : m.round = .running u) :
    u.roundsLeft k < m.roundsLeft k := by
  obtain ⟨hprogram, -, ⟨hsteps, hcursor, hlt⟩ | ⟨hsteps, hlt⟩⟩ := round_cases hlimit h
  · rw [roundsLeft, roundsLeft, hprogram, hsteps, hcursor]
    omega
  · obtain ⟨d, hd⟩ : ∃ d, k - m.steps = d + 1 := ⟨k - m.steps - 1, by omega⟩
    have hd' : k - (m.steps + 1) = d := by omega
    rw [roundsLeft, roundsLeft, hprogram, hsteps, hd, hd', Nat.succ_mul]
    omega

/-- The program is over within the rounds that are left. -/
theorem rounds_finished {n : Nat} (hlimit : m.stepLimit = some k) (hn : m.roundsLeft k < n) :
    ∃ result u, m.rounds n = .finished result u := by
  induction n generalizing m with
  | zero => cases hn
  | succ n ih =>
    rw [rounds]
    cases hround : m.round with
    | running u =>
      have hlt := roundsLeft_lt hlimit hround
      exact ih (round_cases hlimit hround).2.1 (by omega)
    | finished result u => exact ⟨result, u, rfl⟩

/-- The program is over after as many turns as statements may be fetched, and one. -/
theorem runFor_finished {n : Nat} (hlimit : m.stepLimit = some k) (hn : k - m.steps < n) :
    ∃ result u, m.runFor n = .finished result u := by
  induction n generalizing m with
  | zero => cases hn
  | succ n ih =>
    rw [runFor]
    cases hturn : m.turn with
    | running u =>
      rw [turn_eq] at hturn
      cases hat : m.settle.program.at? m.settle.cursor with
      | none =>
        rw [hat] at hturn
        cases hturn
      | some fetched =>
        rw [hat] at hturn
        obtain ⟨-, hcount, hlt⟩ := conclude_step_cases (m := m.settle) hlimit hturn
        have hsteps : u.steps = m.steps + 1 := congrArg Prod.fst hcount
        have hlt' : m.steps < k := hlt
        exact ih (congrArg Prod.snd hcount) (by omega)
    | finished result u => exact ⟨result, u, rfl⟩

/-- Every run with a step limit ends. Whatever the program, the machine and its replies, under the limit
`k` the program is over after `k + 1` turns, and after as many rounds as are bounded by the limit and the
lines of the program, empty ones included. The evaluation of every expression on every machine has a
derivation, with user functions that call one another as they like, and so has every INPUT. -/
theorem execute_ends (m : Machine) (p : Program) (k : Nat) :
    (∃ result u,
      (∀ n > k, (m.withStepLimit (some k)).execute p n = .finished result u) ∧
      ∀ n ≥ (k + 1) * (p.lines.length + 2),
        ((m.withStepLimit (some k)).load p).rounds n = .finished result u) ∧
    (∀ (e : Expr) (v : Machine) (r : Except Error Value × Machine),
      Evaluates e v r ↔ e.eval perform v = r) ∧
    ∀ (prompt : Option String) (t : Target) (ts : List Target) (v : Machine)
      (r : Except Error Unit × Machine),
      Inputs (t :: ts) (question prompt) (question prompt) [] v r ↔
        (Statement.input prompt (t :: ts)).exec perform v.patience v = r := by
  refine ⟨?_, fun e v r => evaluates_iff, fun prompt t ts v r => inputs_iff⟩
  have hlimit : ((m.withStepLimit (some k)).load p).stepLimit = some k := rfl
  obtain ⟨result, u, hrun⟩ := runFor_finished hlimit (Nat.lt_succ_self k)
  refine ⟨result, u, fun n hn => ?_, fun n hn => ?_⟩
  · obtain ⟨d, rfl⟩ : ∃ d, n = k + 1 + d := ⟨n - (k + 1), by omega⟩
    rw [execute, runFor_add, hrun]
  · have hleft : ((m.withStepLimit (some k)).load p).roundsLeft k < n := by
      have hstart : ((m.withStepLimit (some k)).load p).roundsLeft k =
          k * (p.lines.length + 2) + (p.lines.length + 1) := rfl
      rw [Nat.succ_mul] at hn
      omega
    obtain ⟨result', u', hrounds⟩ := rounds_finished hlimit hleft
    obtain ⟨n', hn'⟩ := runFor_eq_rounds (k + 1) ((m.withStepLimit (some k)).load p)
    have hlate := rounds_add n n' ((m.withStepLimit (some k)).load p)
    have hearly := rounds_add n' n ((m.withStepLimit (some k)).load p)
    rw [hrounds] at hlate
    rw [← hn', hrun, Nat.add_comm] at hearly
    rw [hrounds]
    exact hlate.symm.trans hearly

end Machine

end CommodoreBasic
