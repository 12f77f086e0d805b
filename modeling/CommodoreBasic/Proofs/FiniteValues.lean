import CommodoreBasic.Proofs.FiniteConstants
import CommodoreBasic.Proofs.FiniteFloats
import CommodoreBasic.Proofs.Termination

/-!
# Finite values

The constants of a program are finite, and so are the results of its operators and functions: those
whose results may be too great check them and fail. VAL is the exception. It reads a numeral and does not
look whether the number is too great.

A statement reaches the machine through requests only. So if a handler gives finite answers to the
requests of a program that does not call VAL, the values of its expressions are finite, and its
statements make no requests but with finite values.
-/

namespace CommodoreBasic

open CommodoreBasic.Action CommodoreBasic.Number

/-! ## Values and functions -/

namespace Value

variable {v w : Value}

/-- What passes the check for overflow is finite. -/
theorem isFinite_finite (x : Float) : IfOk (·.isFinite = true) (finite x) := by
  rw [finite]
  by_cases h : x.isFinite = true
  · rw [if_pos h]
    exact h
  · rw [if_neg h]
    trivial

/-- What does not pass it is an overflow. -/
theorem finite_eq_raise {x : Float} (h : x.isFinite = false) : finite x = raise .overflow := by
  rw [finite, h, if_neg Bool.false_ne_true]

/-- The number of a finite value is finite. -/
theorem isFinite_toNumber (hv : v.isFinite = true) : IfOk (·.isFinite = true) v.toNumber := by
  cases v with
  | number x => exact hv
  | text s => trivial

/-- A variable that was never stored in has a finite value. -/
theorem isFinite_zeroFor (n : Name) : (zeroFor n).isFinite = true := by
  rw [zeroFor]
  split <;> rfl

/-- Truth values are finite. -/
theorem isFinite_ofBool (b : Bool) : (ofBool b).isFinite = true := by
  cases b <;> decide

/-- So are words. -/
theorem isFinite_ofWord (w : Int16) : (ofWord w).isFinite = true := by
  have hlow := w.le_toInt
  have hhigh := w.toInt_lt
  exact isFinite_ofInt (by omega)

/-- The sum of two numbers is finite, and that of two texts is a text. -/
theorem isFinite_add (v w : Value) : IfOk (·.isFinite = true) (v.add w) := by
  cases v <;> cases w <;> rw [add]
  · exact isFinite_finite _
  · split
    · exact isFinite_finite _
    · trivial
  · split
    · exact isFinite_finite _
    · trivial
  · split
    · exact isFinite_finite _
    · exact rfl

/-- A comparison gives a truth value. -/
theorem isFinite_compare (r : Relation) (v w : Value) :
    IfOk (·.isFinite = true) (compare r v w) := by
  cases v <;> cases w <;> first | exact isFinite_ofBool _ | trivial

end Value

/-- The operators with one operand need a finite one. -/
theorem UnaryOp.isFinite_apply (op : UnaryOp) {v : Value} (hv : v.isFinite = true) :
    IfOk (·.isFinite = true) (op.apply v) := by
  cases op with
  | negate => exact (Value.isFinite_toNumber hv).bind fun x hx => .pure (isFinite_neg hx)
  | complement => exact .after fun w => .pure (Value.isFinite_ofWord _)

/-- The operators need no finite operands. -/
theorem BinaryOp.isFinite_apply (op : BinaryOp) (v w : Value) :
    IfOk (·.isFinite = true) (op.apply v w) := by
  cases op with
  | add => exact Value.isFinite_add v w
  | subtract => exact .after fun x => .after fun y => Value.isFinite_finite _
  | multiply => exact .after fun x => .after fun y => Value.isFinite_finite _
  | divide =>
    refine .after fun x => .after fun y => ?_
    split
    · trivial
    · exact Value.isFinite_finite _
  | power =>
    refine .after fun x => .after fun y => ?_
    split
    · trivial
    · split
      · trivial
      · exact Value.isFinite_finite _
  | conjoin => exact .after fun x => .after fun y => .pure (Value.isFinite_ofWord _)
  | disjoin => exact .after fun x => .after fun y => .pure (Value.isFinite_ofWord _)

/-- Arithmetic whose result would not be finite is an overflow. -/
structure BinaryOp.Overflows (x y : Float) : Prop where
  add (h : (x + y).isFinite = false) : BinaryOp.add.apply (.number x) (.number y) = raise .overflow
  subtract (h : (x - y).isFinite = false) :
    BinaryOp.subtract.apply (.number x) (.number y) = raise .overflow
  multiply (h : (x * y).isFinite = false) :
    BinaryOp.multiply.apply (.number x) (.number y) = raise .overflow
  divide (hy : ¬ (y == 0) = true) (h : (x / y).isFinite = false) :
    BinaryOp.divide.apply (.number x) (.number y) = raise .overflow
  power (hroot : ¬ (x < 0 && !Number.isWhole y) = true) (hpole : ¬ (x == 0 && y < 0) = true)
    (h : (x.pow y).isFinite = false) :
    BinaryOp.power.apply (.number x) (.number y) = raise .overflow

/-- The operators with two operands fail if the result is not finite. -/
theorem BinaryOp.overflows (x y : Float) : Overflows x y where
  add h := Value.finite_eq_raise h
  subtract h := Value.finite_eq_raise h
  multiply h := Value.finite_eq_raise h
  divide hy h := by
    have hdivide : BinaryOp.divide.apply (.number x) (.number y) =
        if (y == 0) = true then raise .divisionByZero else Value.finite (x / y) := rfl
    rw [hdivide, if_neg hy, Value.finite_eq_raise h]
  power hroot hpole h := by
    have hpower : BinaryOp.power.apply (.number x) (.number y) =
        if (x < 0 && !Number.isWhole y) = true then raise .illegalQuantity
        else if (x == 0 && y < 0) = true then raise .divisionByZero
        else Value.finite (x.pow y) := rfl
    rw [hpower, if_neg hroot, if_neg hpole, Value.finite_eq_raise h]

namespace Builtin

/-- The function has finite results if its arguments are finite. -/
def KeepsFinite (f : Builtin) : Prop :=
  ∀ vs : List Value, (∀ v ∈ vs, v.isFinite = true) → IfOk (·.isFinite = true) (f.evaluate vs)

/-- A function of a single number. -/
theorem isFinite_onNumber {g : Float → Float} (hg : ∀ x, x.isFinite = true → (g x).isFinite = true)
    {v : Value} (hv : v.isFinite = true) : IfOk (·.isFinite = true) (onNumber g v) :=
  (Value.isFinite_toNumber hv).bind fun x hx => .pure (hg x hx)

/-- The sign of a number is finite. -/
theorem isFinite_sign (x : Float) : (sign x).isFinite = true := by
  rw [sign]
  split
  · decide
  · split <;> decide

/-- The code of a character is finite. -/
theorem isFinite_toNat (c : Char) : (Float.ofNat c.toNat).isFinite = true := by
  have hc : c.toNat < 4294967296 := c.val.toNat_lt
  exact isFinite_ofNat (by omega)

/-- What is assumed of functions that are not computed here: among those that are `called`, the
arctangent, the sine and the cosine of finite numbers are finite, and so is the logarithm of finite
numbers above zero. -/
structure Elementary (called : Builtin → Prop) : Prop where
  atn : called .atn → ∀ x : Float, x.isFinite = true → x.atan.isFinite = true
  cos : called .cos → ∀ x : Float, x.isFinite = true → x.cos.isFinite = true
  log : called .log → ∀ x : Float, x.isFinite = true → 0 < x → x.log.isFinite = true
  sin : called .sin → ∀ x : Float, x.isFinite = true → x.sin.isFinite = true

/-- Nothing is assumed of functions that are not called. -/
theorem Elementary.of_not_called {called : Builtin → Prop}
    (h : ∀ f ∈ [Builtin.atn, .cos, .log, .sin], ¬ called f) : Elementary called where
  atn hf := absurd hf (h .atn (by decide))
  cos hf := absurd hf (h .cos (by decide))
  log hf := absurd hf (h .log (by decide))
  sin hf := absurd hf (h .sin (by decide))

/-- Every function but VAL keeps numbers finite. -/
theorem keepsFinite {called : Builtin → Prop} (helementary : Elementary called) {f : Builtin}
    (hf : called f) (hval : f ≠ .val) : f.KeepsFinite := by
  intro vs hvs
  fun_cases evaluate f vs with
  | case1 v => exact isFinite_onNumber (fun _ => isFinite_abs) (hvs v List.mem_cons_self)
  | case2 v => exact isFinite_onNumber (helementary.atn hf) (hvs v List.mem_cons_self)
  | case3 v => exact isFinite_onNumber (helementary.cos hf) (hvs v List.mem_cons_self)
  | case4 v => exact isFinite_onNumber (helementary.sin hf) (hvs v List.mem_cons_self)
  | case5 v => exact isFinite_onNumber (fun _ => isFinite_floor) (hvs v List.mem_cons_self)
  | case6 v => exact isFinite_onNumber (fun x _ => isFinite_sign x) (hvs v List.mem_cons_self)
  | case7 v => exact .after fun x => Value.isFinite_finite _
  | case8 v => exact .after fun x => Value.isFinite_finite _
  | case9 v => exact .pure (by decide)
  | case10 v =>
    refine (Value.isFinite_toNumber (hvs v List.mem_cons_self)).bind fun x hx => ?_
    split
    · trivial
    · next hpos => exact .pure (helementary.log hf x hx (zero_lt_of_not_le hx hpos))
  | case11 v =>
    refine (Value.isFinite_toNumber (hvs v List.mem_cons_self)).bind fun x hx => ?_
    split
    · trivial
    · next hpos => exact .pure (isFinite_sqrt hx hpos)
  | case12 v => exact .after fun s => .pure (isFinite_toFloat _)
  | case13 v =>
    refine .after fun s => ?_
    split
    · exact .pure (isFinite_toNat _)
    · trivial
  | case14 v => exact absurd rfl hval
  | case15 v => exact .after fun n => .pure rfl
  | case16 v => exact .after fun x => .pure rfl
  | case17 v => exact .after fun n => .pure rfl
  | case18 v w => exact .after fun s => .after fun n => .pure rfl
  | case19 v w => exact .after fun s => .after fun n => .pure rfl
  | case20 v w rest =>
    refine .after fun s => .after fun start => ?_
    dsimp only
    split
    · trivial
    · split
      · exact .pure rfl
      · exact .after fun count => .pure rfl
  | case21 => trivial

/-- A function that keeps values finite does so also with the generator. -/
theorem KeepsFinite.apply {f : Builtin} (hf : f.KeepsFinite) {vs : List Value}
    (hvs : ∀ v ∈ vs, v.isFinite = true) {g : Random} (hg : g.last.isFinite = true) :
    IfOk (·.isFinite = true) (f.apply vs g).1 ∧ (f.apply vs g).2.last.isFinite = true := by
  unfold Builtin.apply
  split
  · exact ⟨trivial, hg⟩
  · split
    · next v _ _ =>
      cases v with
      | text s => exact ⟨trivial, hg⟩
      | number x => exact ⟨Random.isFinite_roll hg x, Random.isFinite_roll hg x⟩
    · exact ⟨hf vs hvs, hg⟩

end Builtin

/-! ## The expressions of a program -/

/-- With an expression its operands are among the nodes. -/
def Closed (ns : List Node) : Prop :=
  ∀ e, .expression e ∈ ns → ∀ e' ∈ e.operands, .expression e' ∈ ns

namespace Closed

variable {ns ns' : List Node}

/-- Rows of nodes may be put together. -/
theorem append (h : Closed ns) (h' : Closed ns') : Closed (ns ++ ns') := by
  intro e he e' he'
  rcases List.mem_append.mp he with he | he
  · exact List.mem_append_left ns' (h e he e' he')
  · exact List.mem_append_right ns (h' e he e' he')

/-- So may any number of them. -/
theorem flatMap {α : Type} {f : α → List Node} (as : List α) (h : ∀ a, Closed (f a)) :
    Closed (as.flatMap f) := by
  intro e he e' he'
  obtain ⟨a, ha, he⟩ := List.mem_flatMap.mp he
  exact List.mem_flatMap.mpr ⟨a, ha, h a e he e' he'⟩

/-- An expression comes after its operands. -/
theorem expression (h : Closed ns) {e : Expr} (he : ∀ e' ∈ e.operands, .expression e' ∈ ns) :
    Closed (ns ++ [.expression e]) := by
  intro e' he' e'' he''
  rcases List.mem_append.mp he' with he' | he'
  · exact List.mem_append_left _ (h e' he' e'' he'')
  · cases List.mem_singleton.mp he'
    exact List.mem_append_left _ (he e'' he'')

/-- A statement is no expression. -/
theorem statement (h : Closed ns) (s : Statement) : Closed (ns ++ [.statement s]) := by
  refine h.append ?_
  intro e he
  cases List.mem_singleton.mp he

/-- Neither is a target. -/
theorem target (h : Closed ns) (t : Target) : Closed (ns ++ [.target t]) := by
  refine h.append ?_
  intro e he
  cases List.mem_singleton.mp he

end Closed

/-- No nodes have no operands. -/
theorem closed_nil : Closed [] := by
  intro e he
  cases he

namespace Expr

/-- An expression is among its own nodes. -/
theorem mem_nodes (e : Expr) : .expression e ∈ e.nodes := by
  cases e <;> simp [nodes]

/-- The expressions of a list are among its nodes. -/
theorem mem_nodesOfAll {e : Expr} {es : List Expr} (he : e ∈ es) : .expression e ∈ nodesOfAll es := by
  induction es with
  | nil => cases he
  | cons e' es ih =>
    rw [nodesOfAll]
    rcases List.mem_cons.mp he with rfl | he
    · exact List.mem_append_left _ e.mem_nodes
    · exact List.mem_append_right _ (ih he)

/-- So are two expressions among the nodes of both. -/
theorem mem_nodes_pair {e l r : Expr} (he : e ∈ [l, r]) : .expression e ∈ l.nodes ++ r.nodes := by
  rcases List.mem_cons.mp he with rfl | he
  · exact List.mem_append_left _ e.mem_nodes
  · rw [List.mem_singleton.mp he]
    exact List.mem_append_right _ r.mem_nodes

mutual

/-- The nodes of an expression have their operands among them. -/
theorem closed_nodes (e : Expr) : Closed e.nodes := by
  match e with
  | .literal v => exact closed_nil.expression (e := .literal v) nofun
  | .scalar n => exact closed_nil.expression (e := .scalar n) nofun
  | .element n es =>
    rw [nodes]
    exact (closed_nodesOfAll es).expression fun e' he' => mem_nodesOfAll he'
  | .unary op e =>
    rw [nodes]
    refine (closed_nodes e).expression fun e' he' => ?_
    rw [List.mem_singleton.mp he']
    exact e.mem_nodes
  | .binary op l r =>
    rw [nodes]
    refine ((closed_nodes l).append (closed_nodes r)).expression fun e' he' => ?_
    exact mem_nodes_pair he'
  | .comparison rel l r =>
    rw [nodes]
    refine ((closed_nodes l).append (closed_nodes r)).expression fun e' he' => ?_
    exact mem_nodes_pair he'
  | .call c es =>
    rw [nodes]
    exact (closed_nodesOfAll es).expression fun e' he' => mem_nodesOfAll he'

/-- So have those of a list of expressions. -/
theorem closed_nodesOfAll (es : List Expr) : Closed (nodesOfAll es) := by
  match es with
  | [] => exact closed_nil
  | e :: es =>
    rw [nodesOfAll]
    exact (closed_nodes e).append (closed_nodesOfAll es)

end

end Expr

/-- So have those of a target. -/
theorem Target.closed_nodes (t : Target) : Closed t.nodes := by
  cases t with
  | scalar n => exact closed_nil.target _
  | element n es => exact (Expr.closed_nodesOfAll es).target _

/-- So have those of a statement. -/
theorem Statement.closed_nodes (s : Statement) : Closed s.nodes := by
  induction s with
  | assign t e =>
    cases t with
    | scalar n => exact e.closed_nodes.statement _
    | element n es => exact ((Expr.closed_nodesOfAll es).append e.closed_nodes).statement _
  | data items =>
    refine Closed.statement ?_ _
    intro e he e' he'
    obtain ⟨v, -, hv⟩ := List.mem_map.mp he
    cases hv
    cases he'
  | define f parameter body => exact body.closed_nodes.statement _
  | dimension arrays =>
    exact (Closed.flatMap arrays fun a => (Target.element a.1 a.2).closed_nodes).statement _
  | loop counter start limit step =>
    refine Closed.statement ((start.closed_nodes.append limit.closed_nodes).append ?_) _
    cases step with
    | none => exact closed_nil
    | some e => exact e.closed_nodes
  | ifThen condition s ih => exact (condition.closed_nodes.append ih).statement _
  | input prompt targets => exact (Closed.flatMap targets Target.closed_nodes).statement _
  | on selector j lines => exact selector.closed_nodes.statement _
  | print items newline => exact (Expr.closed_nodesOfAll items).statement _
  | read targets => exact (Closed.flatMap targets Target.closed_nodes).statement _
  | _ => exact closed_nil.statement _

namespace Program

variable {p : Program}

/-- The expression occurs in the program, as a whole or as part of another. -/
def Contains (p : Program) (e : Expr) : Prop :=
  ∃ line ∈ p.lines, ∃ s ∈ line.statements, .expression e ∈ s.nodes

/-- The program calls a built-in function somewhere. -/
def Calls (p : Program) (f : Builtin) : Prop := ∃ es, p.Contains (.call (.builtin f) es)

/-- The function that a node calls. -/
def calledBy : Node → Option Builtin
  | .expression (.call (.builtin f) _) => some f
  | _ => none

/-- A node calls a function if it is a call of it. -/
theorem calledBy_eq_some {node : Node} {f : Builtin} :
    calledBy node = some f ↔ ∃ es, node = .expression (.call (.builtin f) es) := by
  constructor
  · intro h
    unfold calledBy at h
    split at h
    · cases h
      exact ⟨_, rfl⟩
    · cases h
  · rintro ⟨es, rfl⟩
    rfl

/-- The calls of a program are found among its nodes. -/
theorem calls_iff (p : Program) (f : Builtin) :
    p.Calls f ↔ ∃ line ∈ p.lines, ∃ s ∈ line.statements, f ∈ s.nodes.filterMap calledBy := by
  simp only [Calls, Contains, List.mem_filterMap, calledBy_eq_some]
  constructor
  · rintro ⟨es, line, hline, s, hs, he⟩
    exact ⟨line, hline, s, hs, _, he, es, rfl⟩
  · rintro ⟨line, hline, s, hs, _, he, es, rfl⟩
    exact ⟨es, line, hline, s, hs, he⟩

/-- Whether a program calls a function can be computed. -/
instance (p : Program) (f : Builtin) : Decidable (p.Calls f) := decidable_of_iff _ (p.calls_iff f).symm

/-- With an expression a program contains its operands. -/
theorem Contains.operand {e e' : Expr} (h : p.Contains e) (he' : e' ∈ e.operands) : p.Contains e' := by
  obtain ⟨line, hline, s, hs, he⟩ := h
  exact ⟨line, hline, s, hs, s.closed_nodes e he e' he'⟩

/-- A program contains the expressions of the statement at a position. -/
theorem Contains.of_at? {pos : Position} {line : Line} {s : Statement} (hat : p.at? pos = some (line, s))
    {e : Expr} (he : .expression e ∈ s.nodes) : p.Contains e := by
  obtain ⟨hline, hs⟩ := at?_eq_some_iff.mp hat
  exact ⟨line, List.mem_of_getElem? hline, s, List.mem_of_getElem? hs, he⟩

/-- The constants of the program are finite, and so are the results of the functions that it calls. -/
structure KeepsFinite (p : Program) : Prop where
  constants (v : Value) (hv : p.Contains (.literal v)) : v.isFinite = true
  builtins (f : Builtin) (hf : p.Calls f) : f.KeepsFinite

/-- The constants of a program that was read are finite, and so are its functions but VAL. -/
theorem keepsFinite {source : String} (hparse : parse source = .ok p) (hval : ¬ p.Calls .val)
    (helementary : Builtin.Elementary p.Calls) : p.KeepsFinite where
  constants v hv := by
    obtain ⟨line, hline, s, hs, he⟩ := hv
    have hsafe := safe_parse source
    rw [hparse] at hsafe
    exact hsafe line hline s hs _ he
  builtins f hf := Builtin.keepsFinite helementary hf fun heq => hval (heq ▸ hf)

end Program

/-! ## Actions that give finite values -/

namespace Action

variable {σ α β : Type} {P : σ → Prop} {Q : α → Prop} {R : β → Prop}

/-- The action keeps a property of states, whether it fails or not, and what it gives has a property. -/
def Yields (P : σ → Prop) (Q : α → Prop) (x : Action σ α) : Prop :=
  ∀ s, P s → IfOk Q (x s).1 ∧ P (x s).2

namespace Yields

/-- A value with the property is given. -/
theorem pure {a : α} (ha : Q a) : Yields P Q (pure a : Action σ α) := fun _ hs => ⟨ha, hs⟩

/-- A failure gives nothing and keeps the state. -/
theorem throw (e : Error) : Yields P Q (throw e : Action σ α) := fun _ hs => ⟨trivial, hs⟩

/-- So does a result that does not depend on the state. -/
theorem ofExcept {r : Except Error α} (hr : IfOk Q r) : Yields P Q (ofExcept r : Action σ α) :=
  fun _ hs => ⟨hr, hs⟩

/-- A change of the state that keeps the property is allowed. -/
theorem modify {f : σ → σ} (hf : ∀ s, P s → P (f s)) {Q : Unit → Prop} (hQ : Q ()) :
    Yields P Q (modify f) := fun s hs => ⟨hQ, hf s hs⟩

/-- What follows may use what is known of the value. -/
theorem bind {x : Action σ α} {f : α → Action σ β} (hx : Yields P Q x)
    (hf : ∀ a, Q a → Yields P R (f a)) : Yields P R (x >>= f) := by
  intro s hs
  obtain ⟨hresult, hstate⟩ := hx s hs
  rw [bind_apply]
  rcases hxs : x s with ⟨_ | a, s'⟩ <;> rw [hxs] at hresult hstate
  · exact ⟨trivial, hstate⟩
  · exact hf a hresult s' hstate

/-- What keeps the property for each element keeps it for a list. -/
theorem forM {f : α → Action σ Unit} (as : List α)
    (hf : ∀ a ∈ as, Yields P (fun _ => True) (f a)) : Yields P (fun _ => True) (as.forM f) := by
  induction as with
  | nil => exact pure trivial
  | cons a as ih =>
    exact (hf a List.mem_cons_self).bind fun _ _ => ih fun b hb => hf b (List.mem_cons_of_mem a hb)

end Yields

end Action

/-- The answer is finite, if it is a value. -/
def Answer.IsFinite : (a : Answer) → a.Carrier → Prop
  | .value, v => v.isFinite = true
  | .done, _ => True
  | .line, _ => True

namespace Request

/-- The values that a request carries. -/
def values {a : Answer} : Request a → List Value
  | .store _ v => [v]
  | .dimension _ sizes => sizes
  | .fetchElement _ subscripts => subscripts
  | .storeElement _ subscripts v => v :: subscripts
  | .beginLoop _ start limit step => [.number start, .number limit, .number step]
  | .call _ arguments => arguments
  | _ => []

/-- A request that the program may make: the functions that it defines or calls are its own. -/
def IsOf (p : Program) {a : Answer} : Request a → Prop
  | .define _ _ body => p.Contains body
  | .call (.builtin f) _ => p.Calls f
  | _ => True

/-- A request of the program with finite values. -/
structure Safe (p : Program) {a : Answer} (r : Request a) : Prop where
  values : ∀ v ∈ r.values, v.isFinite = true
  isOf : r.IsOf p

end Request

/-- To the program's requests with finite values the handler gives finite answers. -/
def Handler.Yields {σ : Type} (p : Program) (P : σ → Prop) (h : Handler σ) : Prop :=
  ∀ (a : Answer) (r : Request a), r.Safe p → Action.Yields P a.IsFinite (h a r)

section

variable {σ : Type} {P : σ → Prop} {p : Program} {h : Handler σ}

namespace Expr

mutual

/-- The value of an expression of the program is finite. -/
theorem eval_yields (hp : p.KeepsFinite) (hask : Handler.Yields p P h) {e : Expr}
    (he : p.Contains e) : Yields P (·.isFinite = true) (e.eval h) := by
  match e, he with
  | .literal v, he => exact .pure (hp.constants v he)
  | .scalar n, he => exact hask .value (.fetch n) ⟨nofun, trivial⟩
  | .element n es, he =>
    refine (evalAll_yields hp hask fun e' => he.operand).bind fun vs hvs => ?_
    exact hask .value (.fetchElement n vs) ⟨hvs, trivial⟩
  | .unary op e, he =>
    refine (eval_yields hp hask (he.operand List.mem_cons_self)).bind fun v hv => ?_
    exact .ofExcept (op.isFinite_apply hv)
  | .binary op l r, he =>
    refine (eval_yields hp hask (he.operand List.mem_cons_self)).bind fun v _ => ?_
    refine (eval_yields hp hask (he.operand (.tail l (.head [])))).bind fun w _ => ?_
    exact .ofExcept (op.isFinite_apply v w)
  | .comparison rel l r, he =>
    refine (eval_yields hp hask (he.operand List.mem_cons_self)).bind fun v _ => ?_
    refine (eval_yields hp hask (he.operand (.tail l (.head [])))).bind fun w _ => ?_
    exact .ofExcept (Value.isFinite_compare rel v w)
  | .call c es, he =>
    refine (evalAll_yields hp hask fun e' => he.operand).bind fun vs hvs => ?_
    refine hask .value (.call c vs) ⟨hvs, ?_⟩
    cases c with
    | builtin f => exact ⟨es, he⟩
    | user f => trivial

/-- The values of expressions of the program are finite. -/
theorem evalAll_yields (hp : p.KeepsFinite) (hask : Handler.Yields p P h) {es : List Expr}
    (hes : ∀ e ∈ es, p.Contains e) : Yields P (∀ v ∈ ·, v.isFinite = true) (evalAll h es) := by
  match es, hes with
  | [], _ => exact .pure (List.forall_mem_nil _)
  | e :: es, hes =>
    refine (eval_yields hp hask (hes e List.mem_cons_self)).bind fun v hv => ?_
    refine (evalAll_yields hp hask fun e' he' => hes e' (.tail e he')).bind fun vs hvs => ?_
    exact .pure (List.forall_mem_cons.mpr ⟨hv, hvs⟩)

end

/-- So is the value of one that must be a number. -/
theorem evalNumber_yields (hp : p.KeepsFinite) (hask : Handler.Yields p P h) {e : Expr}
    (he : p.Contains e) : Yields P (·.isFinite = true) (e.evalNumber h) :=
  (eval_yields hp hask he).bind fun _ hv => .ofExcept (Value.isFinite_toNumber hv)

end Expr

/-- A finite value is stored in a target of the program. -/
theorem Target.store_yields (hp : p.KeepsFinite) (hask : Handler.Yields p P h) {t : Target}
    (ht : ∀ e, .expression e ∈ t.nodes → p.Contains e) {v : Value} (hv : v.isFinite = true) :
    Yields P (fun _ => True) (t.store h v) := by
  cases t with
  | scalar n => exact hask .done (.store n v) ⟨List.forall_mem_singleton.mpr hv, trivial⟩
  | element n es =>
    have hes (e : Expr) (he : e ∈ es) : p.Contains e :=
      ht e (List.mem_append_left _ (Expr.mem_nodesOfAll he))
    refine (Expr.evalAll_yields hp hask hes).bind fun vs hvs => ?_
    exact hask .done (.storeElement n vs v) ⟨List.forall_mem_cons.mpr ⟨hv, hvs⟩, trivial⟩

/-- So are finite values in several targets. -/
theorem Target.storeAll_yields (hp : p.KeepsFinite) (hask : Handler.Yields p P h) {ts : List Target}
    (hts : ∀ t ∈ ts, ∀ e, .expression e ∈ t.nodes → p.Contains e) {vs : List Value}
    (hvs : ∀ v ∈ vs, v.isFinite = true) : Yields P (fun _ => True) (Target.storeAll h ts vs) := by
  induction ts generalizing vs with
  | nil => exact .pure trivial
  | cons t ts ih =>
    cases vs with
    | nil => exact .pure trivial
    | cons v vs =>
      rw [List.forall_mem_cons] at hts hvs
      exact (Target.store_yields hp hask hts.1 hvs.1).bind fun _ _ => ih hts.2 hvs.2

/-- What is pending is printed without a number being stored. -/
theorem printUnlessEmpty_yields (hask : Handler.Yields p P h) (text : String) :
    Yields P (fun _ => True) (printUnlessEmpty h text) := by
  rw [printUnlessEmpty]
  split
  · exact .pure trivial
  · exact hask .done (.print text) ⟨nofun, trivial⟩

/-- The items of PRINT are evaluated one after the other. -/
theorem printFrom_yields (hp : p.KeepsFinite) (hask : Handler.Yields p P h) (newline : Bool)
    {items : List Expr} (hitems : ∀ e ∈ items, p.Contains e) (text : String)
    (previous : Option Piece) :
    Yields P (fun _ => True) (printFrom h newline text previous items) := by
  induction items generalizing text previous with
  | nil =>
    cases newline with
    | false => exact printUnlessEmpty_yields hask text
    | true => exact hask .done (.printLine text) ⟨nofun, trivial⟩
  | cons e es ih =>
    rw [List.forall_mem_cons] at hitems
    refine (Expr.eval_yields hp hask hitems.1).bind fun v _ => ?_
    dsimp only
    split
    · refine (printUnlessEmpty_yields hask text).bind fun _ _ => ?_
      exact (hask .done .clearScreen ⟨nofun, trivial⟩).bind fun _ _ => ih hitems.2 _ _
    · exact ih hitems.2 _ _

/-- A field that suits a variable is finite. -/
theorem Field.isFinite_valueFor? {f : Field} {n : Name} {v : Value} (hv : f.valueFor? n = some v) :
    v.isFinite = true := by
  rw [valueFor?] at hv
  split at hv
  · cases hv
    rfl
  · dsimp only at hv
    split at hv
    · cases hv
      decide
    · obtain ⟨x, hx, rfl⟩ := Option.map_eq_some_iff.mp hv
      exact (Option.filter_eq_some_iff.mp hx).2

/-- So are all fields that suit their targets. -/
theorem Field.isFinite_valuesFor? {ts : List Target} {fs : List Field} {vs : List Value}
    (hvs : Field.valuesFor? ts fs = some vs) : ∀ v ∈ vs, v.isFinite = true := by
  induction ts generalizing fs vs with
  | nil =>
    cases hvs
    exact List.forall_mem_nil _
  | cons t ts ih =>
    cases fs with
    | nil =>
      cases hvs
      exact List.forall_mem_nil _
    | cons f fs =>
      rw [valuesFor?] at hvs
      obtain ⟨v, hv, hvs⟩ := Option.bind_eq_some_iff.mp hvs
      obtain ⟨vs', hvs', hcons⟩ := Option.bind_eq_some_iff.mp hvs
      cases hcons
      exact List.forall_mem_cons.mpr ⟨isFinite_valueFor? hv, ih hvs'⟩

/-- INPUT stores finite values, however often it asks. -/
theorem inputFrom_yields (hp : p.KeepsFinite) (hask : Handler.Yields p P h) {targets : List Target}
    (htargets : ∀ t ∈ targets, ∀ e, .expression e ∈ t.nodes → p.Contains e) (first : String)
    (patience : Nat) (asked : String) (fields : List Field) :
    Yields P (fun _ => True) (inputFrom h targets first patience asked fields) := by
  induction patience generalizing asked fields with
  | zero => exact .throw _
  | succ patience ih =>
    refine (hask .line (.ask asked) ⟨nofun, trivial⟩).bind fun reply _ => ?_
    dsimp only
    split
    · exact ih _ _
    · split
      · refine (hask .done (.printLine "?REDO FROM START") ⟨nofun, trivial⟩).bind fun _ _ => ?_
        exact ih _ _
      · next vs hvs =>
        refine (Target.storeAll_yields hp hask htargets (Field.isFinite_valuesFor? hvs)).bind
          fun _ _ => ?_
        split
        · exact hask .done (.printLine "?EXTRA IGNORED") ⟨nofun, trivial⟩
        · exact .pure trivial

/-- A statement of the program stores finite values only. -/
theorem Statement.exec_yields (hp : p.KeepsFinite) (hask : Handler.Yields p P h) {s : Statement}
    (hs : ∀ e, .expression e ∈ s.nodes → p.Contains e) (patience : Nat) :
    Yields P (fun _ => True) (s.exec h patience) := by
  induction s with
  | assign t e =>
    cases t with
    | scalar n =>
      refine (Expr.eval_yields hp hask (hs e (by simp [nodes, e.mem_nodes]))).bind fun v hv => ?_
      exact hask .done (.store n v) ⟨List.forall_mem_singleton.mpr hv, trivial⟩
    | element n es =>
      have hes (e' : Expr) (he' : e' ∈ es) : p.Contains e' :=
        hs e' (by simp [nodes, Expr.mem_nodesOfAll he'])
      refine (Expr.evalAll_yields hp hask hes).bind fun vs hvs => ?_
      refine (Expr.eval_yields hp hask (hs e (by simp [nodes, e.mem_nodes]))).bind fun v hv => ?_
      exact hask .done (.storeElement n vs v) ⟨List.forall_mem_cons.mpr ⟨hv, hvs⟩, trivial⟩
  | data items => exact .pure trivial
  | define f parameter body =>
    exact hask .done (.define f parameter body) ⟨nofun, hs body (by simp [nodes, body.mem_nodes])⟩
  | dimension arrays =>
    refine .forM arrays fun a ha => ?_
    have hes (e : Expr) (he : e ∈ a.2) : p.Contains e := by
      refine hs e (List.mem_append_left _ (List.mem_flatMap.mpr ⟨a, ha, ?_⟩))
      exact List.mem_append_left _ (Expr.mem_nodesOfAll he)
    refine (Expr.evalAll_yields hp hask hes).bind fun vs hvs => ?_
    exact hask .done (.dimension a.1 vs) ⟨hvs, trivial⟩
  | finish => exact hask .done .finish ⟨nofun, trivial⟩
  | loop counter start limit step =>
    refine (Expr.evalNumber_yields hp hask (hs start (by simp [nodes, start.mem_nodes]))).bind
      fun a ha => ?_
    refine (Expr.evalNumber_yields hp hask (hs limit (by simp [nodes, limit.mem_nodes]))).bind
      fun b hb => ?_
    have hbegin {c : Float} (hc : c.isFinite = true) :
        Yields P (fun _ => True) (h .done (.beginLoop counter a b c)) :=
      hask .done (.beginLoop counter a b c) ⟨by simp [Request.values, Value.isFinite, ha, hb, hc], trivial⟩
    cases step with
    | none => exact hbegin (by decide)
    | some e =>
      refine (Expr.evalNumber_yields hp hask (hs e (by simp [nodes, e.mem_nodes]))).bind fun c hc => ?_
      exact hbegin hc
  | jump j line => exact hask .done (.jump j line) ⟨nofun, trivial⟩
  | ifThen condition s ih =>
    refine (Expr.eval_yields hp hask (hs condition (by simp [nodes, condition.mem_nodes]))).bind
      fun v _ => ?_
    split
    · exact ih fun e he => hs e (by simp [nodes, he])
    · exact hask .done .skipLine ⟨nofun, trivial⟩
  | input prompt targets =>
    cases targets with
    | nil => exact .pure trivial
    | cons t ts =>
      refine inputFrom_yields hp hask (fun t' ht' e he => ?_) _ patience _ []
      exact hs e (List.mem_append_left _ (List.mem_flatMap.mpr ⟨t', ht', he⟩))
  | next counter => exact hask .done (.nextLoop counter) ⟨nofun, trivial⟩
  | on selector j lines =>
    refine (Expr.evalNumber_yields hp hask (hs selector (by simp [nodes, selector.mem_nodes]))).bind
      fun x _ => ?_
    refine (Yields.ofExcept (Q := fun _ => True) ?_).bind fun line _ => ?_
    · cases chosen x lines <;> trivial
    · cases line with
      | none => exact .pure trivial
      | some n => exact hask .done (.jump j n) ⟨nofun, trivial⟩
  | print items newline =>
    refine printFrom_yields hp hask newline (fun e he => ?_) "" none
    exact hs e (List.mem_append_left _ (Expr.mem_nodesOfAll he))
  | read targets =>
    refine .forM targets fun t ht => (hask .value .read ⟨nofun, trivial⟩).bind fun v hv => ?_
    refine Target.store_yields hp hask (fun e he => ?_) hv
    exact hs e (List.mem_append_left _ (List.mem_flatMap.mpr ⟨t, ht, he⟩))
  | remark => exact .pure trivial
  | restore line => exact hask .done (.restore line) ⟨nofun, trivial⟩
  | comeBack => exact hask .done .comeBack ⟨nofun, trivial⟩
  | run line => exact hask .done (.run line) ⟨nofun, trivial⟩
  | stop => exact hask .done .stop ⟨nofun, trivial⟩

end

end CommodoreBasic
