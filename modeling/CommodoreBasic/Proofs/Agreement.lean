import CommodoreBasic.Proofs.PlainErrors

/-!
# Agreement of actions

Expressions and statements touch the state only through their handler. So a relation between actions
that is kept by sequencing holds of whole statements if it holds of single requests. No property of
the machine is used here: every later comparison of two runs, and every fact that one run preserves,
is reduced to single requests by these lemmas.

The relation that is used most is agreement. Two actions agree under a relation between their states
if from related states they have the same result and end in related states again.

Which requests are needed depends on the statement. Evaluation makes three kinds of them, and a
simple statement none that concerns the control flow.
-/

namespace CommodoreBasic

namespace Action

variable {σ τ α β : Type} {R : σ → τ → Prop}

/-- A sequence goes on with the result of its first action. -/
theorem bind_of_ok {x : Action σ α} {f : α → Action σ β} {s s' : σ} {a : α}
    (h : x s = (.ok a, s')) : (x >>= f) s = f a s' := by
  rw [bind_apply, h]

/-- A sequence ends with the failure of its first action. -/
theorem bind_of_error {x : Action σ α} {f : α → Action σ β} {s s' : σ} {e : Error}
    (h : x s = (.error e, s')) : (x >>= f) s = (.error e, s') := by
  rw [bind_apply, h]

/-- A sequence that succeeds is made of actions that do. -/
theorem of_bind_eq_ok {s s' : σ} {act : Action σ α} {f : α → Action σ β} {b : β}
    (hok : (act >>= f) s = (.ok b, s')) :
    ∃ a u, act s = (.ok a, u) ∧ f a u = (.ok b, s') := by
  rw [bind_apply] at hok
  rcases hact : act s with ⟨_ | a, u⟩ <;> rw [hact] at hok
  · cases hok
  · exact ⟨a, u, rfl, hok⟩

/-- A sequence ends in the state that its first action leads to, if the rest leaves states alone. -/
theorem bind_state {x : Action σ α} {f : α → Action σ β} (h : ∀ a s, (f a s).2 = s) (s : σ) :
    ((x >>= f) s).2 = (x s).2 := by
  rw [bind_apply]
  rcases x s with ⟨_ | a, s'⟩
  · rfl
  · exact h a s'

/-- From related states both actions have the same result, and the states stay related. -/
def Agree (R : σ → τ → Prop) (x : Action σ α) (y : Action τ α) : Prop :=
  ∀ s t, R s t → (x s).1 = (y t).1 ∧ R (x s).2 (y t).2

/-- The state has the same view after the action, whether it fails or not. -/
def Keeps {γ : Type} (f : σ → γ) (x : Action σ α) : Prop := ∀ s, f (x s).2 = f s

/-- A view that two actions keep is kept by their sequence. -/
theorem Keeps.bind {γ : Type} {v : σ → γ} {x : Action σ α} {f : α → Action σ β} (hx : Keeps v x)
    (hf : ∀ a, Keeps v (f a)) : Keeps v (x >>= f) := by
  intro s
  have hs := hx s
  rw [bind_apply]
  rcases h : x s with ⟨_ | a, s'⟩ <;> rw [h] at hs
  · exact hs
  · exact (hf a s').trans hs

/-- An action agrees with itself. -/
theorem Agree.eq (x : Action σ α) : Agree Eq x x := fun _ _ h => h ▸ ⟨rfl, rfl⟩

/-- An action that keeps a property agrees with itself from states that have it. -/
theorem Agree.invariant {P : σ → Prop} {x : Action σ α} (h : ∀ s, P s → P (x s).2) :
    Agree (fun s t => s = t ∧ P s) x x := by
  rintro s _ ⟨rfl, hs⟩
  exact ⟨rfl, rfl, h s hs⟩

/-- A value that is merely given changes no state. -/
theorem Agree.pure (a : α) : Agree R (pure a : Action σ α) (pure a : Action τ α) :=
  fun _ _ h => ⟨rfl, h⟩

/-- Neither does a result that does not depend on the state. -/
theorem Agree.ofExcept (r : Except Error α) :
    Agree R (ofExcept r : Action σ α) (ofExcept r : Action τ α) :=
  fun _ _ h => ⟨rfl, h⟩

/-- Failing at once leaves both states as they are. -/
theorem Agree.throw (e : Error) : Agree R (throw e : Action σ α) (throw e : Action τ α) :=
  fun _ _ h => ⟨rfl, h⟩

/-- Agreement is kept by sequencing: after a failure neither side goes on. -/
theorem Agree.bind {x : Action σ α} {y : Action τ α} {f : α → Action σ β} {g : α → Action τ β}
    (hxy : Agree R x y) (hfg : ∀ a, Agree R (f a) (g a)) : Agree R (x >>= f) (y >>= g) := by
  intro s t hst
  obtain ⟨hresult, hstate⟩ := hxy s t hst
  rw [bind_apply, bind_apply]
  rcases hx : x s with ⟨_ | a, s'⟩ <;> rcases hy : y t with ⟨_ | b, t'⟩ <;>
    simp only [hx, hy, reduceCtorEq, Except.error.injEq, Except.ok.injEq] at hresult hstate
  · exact ⟨congrArg Except.error hresult, hstate⟩
  · subst hresult
    exact hfg a s' t' hstate

/-- A relation between actions that holds of results alone, if their errors are plain, and is kept by
sequencing. -/
structure Compositional (J : {α : Type} → Action σ α → Action τ α → Prop) : Prop where
  ofExcept {α : Type} {r : Except Error α} : Plain r → J (ofExcept r) (ofExcept r)
  bind {α β : Type} {x : Action σ α} {y : Action τ α} {f : α → Action σ β} {g : α → Action τ β} :
    J x y → (∀ a, J (f a) (g a)) → J (x >>= f) (y >>= g)

/-- Agreement is one of the relations that whole statements inherit from single requests. -/
theorem compositional_agree : Compositional (Agree R) where
  ofExcept _ := Agree.ofExcept _
  bind := Agree.bind

namespace Compositional

variable {J : {α : Type} → Action σ α → Action τ α → Prop} (hJ : Compositional J)
include hJ

/-- A value is a result without an error. -/
theorem pure (a : α) : J (pure a : Action σ α) (pure a : Action τ α) := hJ.ofExcept (.ok a)

/-- An error without a line is plain. -/
theorem raise (k : ErrorKind) : J (raise k : Action σ α) (raise k : Action τ α) :=
  hJ.ofExcept (r := throw { kind := k }) .throw

/-- What is kept by sequencing is kept by going through a list. -/
theorem forM {f : α → Action σ Unit} {g : α → Action τ Unit} (as : List α)
    (hfg : ∀ a ∈ as, J (f a) (g a)) : J (as.forM f) (as.forM g) := by
  induction as with
  | nil => exact hJ.pure ()
  | cons a as ih =>
    refine hJ.bind (hfg a List.mem_cons_self) fun _ => ih fun b hb => ?_
    exact hfg b (List.mem_cons_of_mem a hb)

end Compositional

end Action

open CommodoreBasic.Action

namespace Request

/-- The requests that the value of an expression may take. -/
def isEvaluation {a : Answer} : Request a → Bool
  | .fetch _ | .fetchElement .. | .call .. => true
  | _ => false

/-- The requests that concern variables, the next DATA item, the console or functions, but neither
the control flow nor the lines of the program. -/
def isSimple {a : Answer} : Request a → Bool
  | .fetch _ | .store .. | .dimension .. | .fetchElement .. | .storeElement .. | .read
  | .print _ | .printLine _ | .ask _ | .clearScreen | .define .. | .call .. => true
  | _ => false

/-- An evaluation asks for nothing but simple requests. -/
theorem isSimple_of_isEvaluation {a : Answer} {r : Request a} (h : r.isEvaluation = true) :
    r.isSimple = true := by
  cases r <;> first | rfl | cases h

end Request

/-- LET, DATA, DEF, DIM, INPUT, PRINT and READ: the statements after which the next one follows. -/
def Statement.isSimple : Statement → Bool
  | .assign .. | .data _ | .define .. | .dimension _ | .input .. | .print .. | .read _ => true
  | _ => false

/-- What a statement may ask for: only simple requests if it is simple itself. -/
def Statement.mayAsk (s : Statement) {a : Answer} (r : Request a) : Bool := !s.isSimple || r.isSimple

/-- What both handlers do with a request that has the property `p` is related. -/
def Handler.RelatedOn {σ τ : Type} (p : {a : Answer} → Request a → Bool)
    (J : {α : Type} → Action σ α → Action τ α → Prop) (h : Handler σ) (k : Handler τ) : Prop :=
  ∀ (a : Answer) (r : Request a), p r = true → J (h a r) (k a r)

/-- Both handlers do the same with the requests that have the property `p`. -/
def Handler.AgreeOn {σ τ : Type} (p : {a : Answer} → Request a → Bool) (R : σ → τ → Prop)
    (h : Handler σ) (k : Handler τ) : Prop :=
  ∀ (a : Answer) (r : Request a), p r = true → Agree R (h a r) (k a r)

variable {σ τ : Type} {h : Handler σ} {k : Handler τ}

/-- Expressions that have values have them one after the other. -/
theorem Expr.of_evalAll_cons {e : Expr} {es : List Expr} {vs : List Value} {s s' : σ}
    (hok : evalAll h (e :: es) s = (.ok vs, s')) :
    ∃ v vs' u, vs = v :: vs' ∧ e.eval h s = (.ok v, u) ∧ evalAll h es u = (.ok vs', s') := by
  rw [evalAll] at hok
  obtain ⟨v, u, hv, hrest⟩ := Action.of_bind_eq_ok hok
  obtain ⟨vs', u', hvs, hpure⟩ := Action.of_bind_eq_ok hrest
  cases hpure
  exact ⟨v, vs', u, rfl, hv, hvs⟩

/-- The values of two lists of expressions are those of the first, then those of the second. -/
theorem Expr.of_evalAll_append {es es' : List Expr} {vs : List Value} {s s' : σ}
    (hok : evalAll h (es ++ es') s = (.ok vs, s')) :
    ∃ ws ws' u, vs = ws ++ ws' ∧ evalAll h es s = (.ok ws, u) ∧ evalAll h es' u = (.ok ws', s') := by
  induction es generalizing s vs with
  | nil => exact ⟨[], vs, s, rfl, rfl, hok⟩
  | cons e es ih =>
    obtain ⟨v, rest, u, rfl, hv, hrest⟩ := of_evalAll_cons hok
    obtain ⟨ws, ws', u', rfl, hws, hws'⟩ := ih hrest
    refine ⟨v :: ws, ws', u', rfl, ?_, hws'⟩
    rw [evalAll, Action.bind_of_ok hv, Action.bind_of_ok hws]
    rfl

section Related

variable {J : {α : Type} → Action σ α → Action τ α → Prop} (hJ : Compositional J)

/-- Evaluation is among the simple requests. -/
theorem Handler.RelatedOn.evaluation (hask : Handler.RelatedOn Request.isSimple J h k) :
    Handler.RelatedOn Request.isEvaluation J h k :=
  fun a r hr => hask a r (Request.isSimple_of_isEvaluation hr)

include hJ

namespace Expr

mutual

/-- If what both handlers do with the requests of an evaluation is related, so are the evaluations. -/
theorem eval_related (hask : Handler.RelatedOn Request.isEvaluation J h k) (e : Expr) :
    J (e.eval h) (e.eval k) := by
  match e with
  | .literal v => exact hJ.pure v
  | .scalar n => exact hask _ (.fetch n) rfl
  | .element n es => exact hJ.bind (evalAll_related hask es) fun vs => hask _ (.fetchElement n vs) rfl
  | .unary op e => exact hJ.bind (eval_related hask e) fun v => hJ.ofExcept (op.plain_apply v)
  | .binary op l r =>
    exact hJ.bind (eval_related hask l) fun v =>
      hJ.bind (eval_related hask r) fun w => hJ.ofExcept (op.plain_apply v w)
  | .comparison rel l r =>
    exact hJ.bind (eval_related hask l) fun v =>
      hJ.bind (eval_related hask r) fun w => hJ.ofExcept (v.plain_compare w rel)
  | .call c es => exact hJ.bind (evalAll_related hask es) fun vs => hask _ (.call c vs) rfl

/-- The same of a list of expressions. -/
theorem evalAll_related (hask : Handler.RelatedOn Request.isEvaluation J h k) (es : List Expr) :
    J (evalAll h es) (evalAll k es) := by
  match es with
  | [] => exact hJ.pure []
  | e :: es =>
    exact hJ.bind (eval_related hask e) fun v =>
      hJ.bind (evalAll_related hask es) fun vs => hJ.pure (v :: vs)

end

/-- The same of an expression whose value must be a number. -/
theorem evalNumber_related (hask : Handler.RelatedOn Request.isEvaluation J h k) (e : Expr) :
    J (e.evalNumber h) (e.evalNumber k) :=
  hJ.bind (eval_related hJ hask e) fun v => hJ.ofExcept v.plain_toNumber

end Expr

section Simple

variable (hask : Handler.RelatedOn Request.isSimple J h k)
include hask

/-- A value is stored in a target by requests that are simple. -/
theorem Target.store_related (v : Value) (t : Target) : J (t.store h v) (t.store k v) := by
  cases t with
  | scalar n => exact hask _ (.store n v) rfl
  | element n es =>
    exact hJ.bind (Expr.evalAll_related hJ hask.evaluation es) fun vs =>
      hask _ (.storeElement n vs v) rfl

/-- So are the values for a list of targets. -/
theorem Target.storeAll_related (ts : List Target) (vs : List Value) :
    J (Target.storeAll h ts vs) (Target.storeAll k ts vs) := by
  induction ts generalizing vs with
  | nil => exact hJ.pure ()
  | cons t ts ih =>
    cases vs with
    | nil => exact hJ.pure ()
    | cons v vs => exact hJ.bind (Target.store_related hJ hask v t) fun _ => ih vs

/-- Nothing or one request is made to print what is pending. -/
theorem printUnlessEmpty_related (text : String) :
    J (printUnlessEmpty h text) (printUnlessEmpty k text) := by
  unfold printUnlessEmpty
  split
  · exact hJ.pure ()
  · exact hask _ (.print text) rfl

/-- The items of PRINT are related one after the other. -/
theorem printFrom_related (newline : Bool) (items : List Expr) (text : String)
    (previous : Option Piece) :
    J (printFrom h newline text previous items) (printFrom k newline text previous items) := by
  induction items generalizing text previous with
  | nil =>
    cases newline
    · exact printUnlessEmpty_related hJ hask text
    · exact hask _ (.printLine text) rfl
  | cons e es ih =>
    refine hJ.bind (Expr.eval_related hJ hask.evaluation e) fun v => ?_
    dsimp only
    split
    · exact hJ.bind (printUnlessEmpty_related hJ hask text) fun _ =>
        hJ.bind (hask _ .clearScreen rfl) fun _ => ih _ _
    · exact ih _ _

end Simple

/-- The rounds of INPUT are related as long as both sides take the same number of replies at most. Only
values that suit the targets are stored. -/
theorem inputFrom_related {targets : List Target}
    (hask : ∀ s : String, J (h .line (.ask s)) (k .line (.ask s)))
    (hprint : ∀ s : String, J (h .done (.printLine s)) (k .done (.printLine s)))
    (hstore : ∀ fields vs, Field.valuesFor? targets fields = some vs →
      J (Target.storeAll h targets vs) (Target.storeAll k targets vs))
    (first : String) (patience : Nat) (asked : String) (fields : List Field) :
    J (inputFrom h targets first patience asked fields)
      (inputFrom k targets first patience asked fields) := by
  induction patience generalizing asked fields with
  | zero => exact hJ.raise _
  | succ patience ih =>
    refine hJ.bind (hask asked) fun reply => ?_
    dsimp only
    split
    · exact ih _ _
    · split
      · exact hJ.bind (hprint _) fun _ => ih _ _
      · next vs hvs =>
        refine hJ.bind (hstore _ vs hvs) fun _ => ?_
        split
        · exact hprint _
        · exact hJ.pure ()

/-- What handlers do with a statement is related if what they do with its requests is. Only a statement
that is not simple makes requests that are not. -/
theorem Statement.exec_related (s : Statement) (patience : Nat)
    (hask : Handler.RelatedOn s.mayAsk J h k) : J (s.exec h patience) (s.exec k patience) := by
  have hsimple : Handler.RelatedOn Request.isSimple J h k :=
    fun a r hr => hask a r (by simp [mayAsk, hr])
  have heval := hsimple.evaluation
  have hother : s.isSimple = false → ∀ (a : Answer) (r : Request a), J (h a r) (k a r) :=
    fun hs a r => hask a r (by simp [mayAsk, hs])
  induction s with
  | assign t e =>
    cases t with
    | scalar n => exact hJ.bind (Expr.eval_related hJ heval e) fun v => hsimple _ (.store n v) rfl
    | element n es =>
      exact hJ.bind (Expr.evalAll_related hJ heval es) fun vs =>
        hJ.bind (Expr.eval_related hJ heval e) fun v => hsimple _ (.storeElement n vs v) rfl
  | data items => exact hJ.pure ()
  | define f parameter body => exact hsimple _ (.define f parameter body) rfl
  | dimension arrays =>
    exact hJ.forM arrays fun (n, es) _ =>
      hJ.bind (Expr.evalAll_related hJ heval es) fun vs => hsimple _ (.dimension n vs) rfl
  | finish => exact hother rfl _ .finish
  | loop counter start limit step =>
    refine hJ.bind (Expr.evalNumber_related hJ heval start) fun a =>
      hJ.bind (Expr.evalNumber_related hJ heval limit) fun b => ?_
    cases step with
    | none => exact hother rfl _ (.beginLoop counter a b 1)
    | some e =>
      exact hJ.bind (Expr.evalNumber_related hJ heval e) fun s =>
        hother rfl _ (.beginLoop counter a b s)
  | jump j line => exact hother rfl _ (.jump j line)
  | ifThen condition s ih =>
    refine hJ.bind (Expr.eval_related hJ heval condition) fun v => ?_
    split
    · exact ih (fun a r _ => hother rfl a r) fun _ => hother rfl
    · exact hother rfl _ .skipLine
  | input prompt targets =>
    cases targets with
    | nil => exact hJ.pure ()
    | cons t ts =>
      refine inputFrom_related hJ (fun s => hsimple _ (.ask s) rfl)
        (fun s => hsimple _ (.printLine s) rfl) (fun _ vs _ => ?_) _ patience _ []
      exact Target.storeAll_related hJ hsimple (t :: ts) vs
  | next counter => exact hother rfl _ (.nextLoop counter)
  | on selector j lines =>
    refine hJ.bind (Expr.evalNumber_related hJ heval selector) fun x =>
      hJ.bind (hJ.ofExcept (plain_chosen x lines)) fun line => ?_
    cases line with
    | none => exact hJ.pure ()
    | some n => exact hother rfl _ (.jump j n)
  | print items newline => exact printFrom_related hJ hsimple newline items "" none
  | read targets =>
    exact hJ.forM targets fun t _ =>
      hJ.bind (hsimple _ .read rfl) fun v => Target.store_related hJ hsimple v t
  | remark => exact hJ.pure ()
  | restore line => exact hother rfl _ (.restore line)
  | comeBack => exact hother rfl _ .comeBack
  | run line => exact hother rfl _ (.run line)
  | stop => exact hother rfl _ .stop

end Related

variable {R : σ → τ → Prop}

/-- Handlers that agree on simple requests agree on those of an evaluation. -/
theorem Handler.AgreeOn.evaluation (hask : AgreeOn Request.isSimple R h k) :
    AgreeOn Request.isEvaluation R h k :=
  fun a r hr => hask a r (Request.isSimple_of_isEvaluation hr)

namespace Expr

/-- Handlers that agree on evaluation give every expression the same value. -/
theorem eval_agree (hask : Handler.AgreeOn Request.isEvaluation R h k) (e : Expr) :
    Agree R (e.eval h) (e.eval k) := eval_related compositional_agree hask e

/-- The same of a list of expressions. -/
theorem evalAll_agree (hask : Handler.AgreeOn Request.isEvaluation R h k) (es : List Expr) :
    Agree R (evalAll h es) (evalAll k es) := evalAll_related compositional_agree hask es

/-- The same of an expression whose value must be a number. -/
theorem evalNumber_agree (hask : Handler.AgreeOn Request.isEvaluation R h k) (e : Expr) :
    Agree R (e.evalNumber h) (e.evalNumber k) := evalNumber_related compositional_agree hask e

end Expr

/-- Handlers that agree on the requests of a statement carry it out alike. -/
theorem Statement.exec_agree (s : Statement) (patience : Nat)
    (hask : Handler.AgreeOn s.mayAsk R h k) : Agree R (s.exec h patience) (s.exec k patience) :=
  exec_related compositional_agree s patience hask

end CommodoreBasic
