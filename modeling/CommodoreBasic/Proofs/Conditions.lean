import CommodoreBasic.Machine.Perform
import CommodoreBasic.Proofs.Agreement
import CommodoreBasic.Proofs.FiniteFloats

/-!
# Conditions

A comparison gives the number -1 if it is true and 0 if it is not. As words of 16 bits these are all ones
and all zeros, so the operators on bits AND, OR and NOT are on them the logical operators, and what they
give is again one of the two numbers. Hence an expression that joins comparisons by AND, OR and NOT has
the truth value of the formula that it spells, and IF follows it.

A comparison is looked at by what it says of its operands in the order of floating numbers and in that of
texts. Not-a-number is unequal to all numbers and in no other relation to any; without it, and within one
type, every comparison has an opposite.
-/

namespace CommodoreBasic

open Float.Model (UnpackedFloat)

/-! ## Comparisons -/

/-- What a comparison says of two values in an order in which `same` is equality. -/
def Relation.Between {α : Type} [LT α] [LE α] (same : α → α → Prop) (x y : α) : Relation → Prop
  | equal => same x y
  | notEqual => ¬ same x y
  | less => x < y
  | greater => y < x
  | lessOrEqual => x ≤ y
  | greaterOrEqual => y ≤ x

/-- What a comparison says of two values, which must be two numbers or two texts. -/
def Relation.Says (r : Relation) : Value → Value → Prop
  | .number x, .number y => r.Between (fun x y => (x == y) = true) x y
  | .text s, .text t => r.Between Eq s t
  | _, _ => False

/-- The comparison that is true when this one is not. -/
def Relation.opposite : Relation → Relation
  | equal => notEqual
  | notEqual => equal
  | less => greaterOrEqual
  | greater => lessOrEqual
  | lessOrEqual => greater
  | greaterOrEqual => less

/-- Of two values that can be compared, a relation holds or its opposite does. -/
theorem Relation.holds_opposite (r : Relation) (o : Ordering) :
    r.opposite.holds (some o) = !r.holds (some o) := by
  cases r <;> cases o <;> rfl

/-- A comparison is decided by which of three things is true. -/
theorem Relation.holds_iff_between {α : Type} [LT α] [LE α] {same : α → α → Prop} {x y : α}
    {o : Option Ordering} (hlt : o = some .lt ↔ x < y) (heq : o = some .eq ↔ same x y)
    (hgt : o = some .gt ↔ y < x) (hle : x ≤ y ↔ x < y ∨ same x y) (hge : y ≤ x ↔ y < x ∨ same x y)
    (r : Relation) : r.holds o = true ↔ r.Between same x y := by
  cases r with
  | equal =>
    rw [Between, ← heq]
    rcases o with _ | _ | _ | _ <;> simp [holds]
  | notEqual =>
    rw [Between, ← heq]
    rcases o with _ | _ | _ | _ <;> simp [holds]
  | less =>
    rw [Between, ← hlt]
    rcases o with _ | _ | _ | _ <;> simp [holds]
  | greater =>
    rw [Between, ← hgt]
    rcases o with _ | _ | _ | _ <;> simp [holds]
  | lessOrEqual =>
    rw [Between, hle, ← hlt, ← heq]
    rcases o with _ | _ | _ | _ <;> simp [holds]
  | greaterOrEqual =>
    rw [Between, hge, ← hgt, ← heq]
    rcases o with _ | _ | _ | _ <;> simp [holds]

namespace Number

/-- The order of two numbers seen from the other side. -/
theorem swap_compare (u v : UnpackedFloat) : (u.compare v).map Ordering.swap = v.compare u := by
  rcases u with (_ | _) | _ | (_ | _) | ⟨_ | _, m, e, _⟩ <;>
    rcases v with (_ | _) | _ | (_ | _) | ⟨_ | _, n, f, _⟩ <;> try rfl
  -- two finite numbers of one sign are left
  · change some ((compare e f).then (compare m n)).swap.swap =
      some ((compare f e).then (compare n m)).swap
    rw [Ordering.swap_swap, Ordering.swap_then, Int.compare_swap, Nat.compare_swap]
  · change some ((compare e f).then (compare m n)).swap = some ((compare f e).then (compare n m))
    rw [Ordering.swap_then, Int.compare_swap, Nat.compare_swap]

/-- Numbers that are not NaN can be compared. -/
theorem compare_ne_none {u v : UnpackedFloat} (hu : u.isNaN = false) (hv : v.isNaN = false) :
    u.compare v ≠ none := by
  rcases u with (_ | _) | _ | _ | ⟨_ | _, _⟩
  case notANumber => cases hu
  all_goals
    rcases v with (_ | _) | _ | _ | ⟨_ | _, _⟩
    case notANumber => cases hv
    all_goals
      intro hnone
      cases hnone

variable {x y : Float}

/-- The order of floating numbers is that of their unpacked parts. -/
theorem lt_iff_compare : x < y ↔ x.toModel.unpack.compare y.toModel.unpack = some .lt := by
  rw [lt_iff]
  change (x.toModel.unpack.compare y.toModel.unpack == some .lt) = true ↔ _
  rw [beq_iff_eq]

/-- The same with the sides exchanged. -/
theorem gt_iff_compare : y < x ↔ x.toModel.unpack.compare y.toModel.unpack = some .gt := by
  rw [lt_iff_compare, ← swap_compare]
  rcases x.toModel.unpack.compare y.toModel.unpack with _ | _ | _ | _ <;> simp [Ordering.swap]

/-- At most means less or equal. -/
theorem le_iff_lt_or_beq : x ≤ y ↔ x < y ∨ (x == y) = true := by
  rw [le_iff, lt_iff_compare, beq_iff]
  change (x.toModel.unpack.compare y.toModel.unpack).any (·.isLE) = true ↔ _
  rcases x.toModel.unpack.compare y.toModel.unpack with _ | _ | _ | _ <;> simp

/-- Equality of floating numbers has no side. -/
theorem beq_comm : (x == y) = true ↔ (y == x) = true := by
  rw [beq_iff, beq_iff, ← swap_compare]
  rcases y.toModel.unpack.compare x.toModel.unpack with _ | _ | _ | _ <;> simp [Ordering.swap]

/-- Two numbers are compared as their unpacked forms are. -/
theorem compareNumbers_eq (x y : Float) :
    Value.compareNumbers x y = x.toModel.unpack.compare y.toModel.unpack := by
  have hlt := lt_iff_compare (x := x) (y := y)
  have heq := beq_iff (x := x) (y := y)
  have hgt := gt_iff_compare (x := x) (y := y)
  rw [Value.compareNumbers]
  simp only [hlt, heq, hgt]
  rcases x.toModel.unpack.compare y.toModel.unpack with _ | _ | _ | _ <;> simp

/-- A relation holds between two numbers exactly if it says something true of them. -/
theorem holds_compareNumbers (r : Relation) (x y : Float) :
    r.holds (Value.compareNumbers x y) = true ↔ r.Says (.number x) (.number y) := by
  have hge : y ≤ x ↔ y < x ∨ (x == y) = true := by rw [le_iff_lt_or_beq, beq_comm]
  rw [compareNumbers_eq]
  change _ ↔ r.Between (fun x y => (x == y) = true) x y
  exact Relation.holds_iff_between lt_iff_compare.symm beq_iff.symm gt_iff_compare.symm
    le_iff_lt_or_beq hge r

end Number

/-- A relation holds between two texts exactly if it says something true of them. -/
theorem Relation.holds_compare (r : Relation) (s t : String) :
    r.holds (some (Ord.compare s t)) = true ↔ r.Says (.text s) (.text t) := by
  have hnot {s t : String} : ¬ s ≤ t ↔ t < s := by rw [← String.not_lt, Decidable.not_not]
  have hle (s t : String) : s ≤ t ↔ s < t ∨ s = t := by
    constructor
    · intro h
      by_cases hlt : s < t
      · exact .inl hlt
      · exact .inr (String.le_antisymm h (String.not_lt.mp hlt))
    · rintro (h | rfl)
      · exact Std.le_of_lt h
      · exact String.le_refl s
  have hge : t ≤ s ↔ t < s ∨ s = t := by rw [hle, eq_comm]
  refine holds_iff_between ?_ ?_ ?_ (hle s t) hge r
  · rw [Option.some_inj]
    exact compareOfLessAndEq_eq_lt
  · rw [Option.some_inj]
    exact compareOfLessAndEq_eq_eq String.le_refl hnot
  · rw [Option.some_inj]
    exact compareOfLessAndEq_eq_gt String.le_antisymm String.le_total hnot s t

namespace Value

/-- The value is not-a-number. -/
def isNaN : Value → Bool
  | number x => x.isNaN
  | text _ => false

variable {a b : Value}

/-- Values of one type have an order, or are unordered, and all comparisons go by it. -/
theorem exists_ordering (h : a.isText = b.isText) :
    ∃ o : Option Ordering, (a.isNaN = false → b.isNaN = false → o ≠ none) ∧
      ∀ r, compare r a b = .ok (ofBool (r.holds o)) ∧ (r.holds o = true ↔ r.Says a b) := by
  cases a with
  | number x =>
    cases b with
    | number y =>
      refine ⟨compareNumbers x y, fun hx hy => ?_, fun r => ⟨rfl, Number.holds_compareNumbers r x y⟩⟩
      rw [Number.compareNumbers_eq]
      exact Number.compare_ne_none hx hy
    | text t => cases h
  | text s =>
    cases b with
    | number y => cases h
    | text t =>
      exact ⟨some (Ord.compare s t), fun _ _ => Option.some_ne_none _,
        fun r => ⟨rfl, Relation.holds_compare r s t⟩⟩

/-- Without not-a-number the opposite of a comparison is its negation. -/
theorem compare_opposite (h : a.isText = b.isText) (ha : a.isNaN = false) (hb : b.isNaN = false)
    (r : Relation) : ∃ p : Bool, compare r a b = .ok (ofBool p) ∧
      compare r.opposite a b = .ok (ofBool !p) := by
  obtain ⟨o, ho, hcompare⟩ := exists_ordering h
  obtain ⟨o, rfl⟩ := Option.ne_none_iff_exists'.mp (ho ha hb)
  refine ⟨r.holds (some o), (hcompare r).1, ?_⟩
  rw [← Relation.holds_opposite]
  exact (hcompare r.opposite).1

/-! ## Truth values as words -/

/-- All 16 bits are ones or all are zeros. -/
def mask (p : Bool) : Int16 := if p then -1 else 0

/-- A truth value is a word of equal bits. -/
theorem toWord_ofBool (p : Bool) : (ofBool p).toWord = .ok (mask p) := by cases p <;> rfl

/-- A word of equal bits is a truth value. -/
theorem ofWord_mask (p : Bool) : ofWord (mask p) = ofBool p := by cases p <;> rfl

/-- A truth value is true exactly if it says so. -/
theorem isTrue_ofBool (p : Bool) : (ofBool p).isTrue = p := by cases p <;> rfl

/-- True is -1 and false is 0. -/
theorem exists_number_ofBool (p : Bool) :
    ∃ x : Float, ofBool p = number x ∧ (x = -1 ∨ x = 0) ∧ (x = -1 ↔ p = true) := by
  cases p with
  | false =>
    refine ⟨0, rfl, .inr rfl, fun heq => ?_, fun heq => by cases heq⟩
    have htrue := congrArg (fun x => isTrue (.number x)) heq
    cases htrue
  | true => exact ⟨-1, rfl, .inl rfl, fun _ => rfl, fun _ => rfl⟩

/-- NOT of a word of equal bits is one too. -/
theorem not_mask (p : Bool) : ~~~mask p = mask !p := by cases p <;> rfl

/-- AND of two words of equal bits is one too. -/
theorem mask_and (p q : Bool) : mask p &&& mask q = mask (p && q) := by cases p <;> cases q <;> rfl

/-- So is OR. -/
theorem mask_or (p q : Bool) : mask p ||| mask q = mask (p || q) := by cases p <;> cases q <;> rfl

/-- NOT of a truth value is the other one. -/
theorem complement_ofBool (p : Bool) : (ofBool p).complement = .ok (ofBool !p) := by
  rw [complement, toWord_ofBool, ← ofWord_mask, ← not_mask]
  rfl

/-- AND of two truth values is true if both are. -/
theorem conjoin_ofBool (p q : Bool) : (ofBool p).conjoin (ofBool q) = .ok (ofBool (p && q)) := by
  rw [conjoin, toWord_ofBool, toWord_ofBool, ← ofWord_mask, ← mask_and]
  rfl

/-- OR of two truth values is true if one of them is. -/
theorem disjoin_ofBool (p q : Bool) : (ofBool p).disjoin (ofBool q) = .ok (ofBool (p || q)) := by
  rw [disjoin, toWord_ofBool, toWord_ofBool, ← ofWord_mask, ← mask_or]
  rfl

end Value

/-! ## Formulas -/

/-- A comparison of two expressions or of two values. -/
structure Comparison (ε : Type) where
  relation : Relation
  left : ε
  right : ε

namespace Comparison

/-- The comparison as an expression. -/
def expr (c : Comparison Expr) : Expr := .comparison c.relation c.left c.right

/-- What the comparison says is true. -/
def Says (c : Comparison Value) : Prop := c.relation.Says c.left c.right

variable {σ : Type} (h : Handler σ)

/-- The comparison of the values of the operands, which must be of one type. -/
def settle (c : Comparison Expr) : Action σ (Comparison Value) := do
  let v ← c.left.eval h
  let w ← c.right.eval h
  if v.isText = w.isText then return { relation := c.relation, left := v, right := w }
  else raise .typeMismatch

variable {h} {c : Comparison Expr} {s s' : σ}

/-- A comparison that has a value compares two values of one type. -/
theorem exists_settle {v : Value} (hok : c.expr.eval h s = (.ok v, s')) :
    ∃ d, c.settle h s = (.ok d, s') := by
  rw [expr, Expr.eval] at hok
  obtain ⟨a, u, ha, hrest⟩ := Action.of_bind_eq_ok hok
  obtain ⟨b, u', hb, hcompare⟩ := Action.of_bind_eq_ok hrest
  obtain ⟨hvalue, rfl⟩ := Prod.ext_iff.mp hcompare
  have htypes : a.isText = b.isText := by
    cases a <;> cases b <;> first | rfl | cases hvalue
  refine ⟨{ relation := c.relation, left := a, right := b }, ?_⟩
  rw [settle, Action.bind_of_ok ha, Action.bind_of_ok hb, if_pos htypes]
  rfl

/-- The value of a comparison is the truth value of what it says. -/
theorem eval_expr {d : Comparison Value} (hok : c.settle h s = (.ok d, s')) :
    ∃ p : Bool, (p = true ↔ d.Says) ∧ c.expr.eval h s = (.ok (.ofBool p), s') := by
  rw [settle] at hok
  obtain ⟨a, u, ha, hrest⟩ := Action.of_bind_eq_ok hok
  obtain ⟨b, u', hb, hlast⟩ := Action.of_bind_eq_ok hrest
  split at hlast
  case isTrue htypes =>
    cases hlast
    obtain ⟨o, -, hcompare⟩ := Value.exists_ordering htypes
    refine ⟨c.relation.holds o, (hcompare c.relation).2, ?_⟩
    rw [expr, Expr.eval, Action.bind_of_ok ha, Action.bind_of_ok hb, (hcompare c.relation).1]
    rfl
  case isFalse => cases hlast

end Comparison

/-- A formula of propositional logic with comparisons, or what stands for them, as its atoms. -/
inductive Formula (α : Type) where
  | atom (a : α)
  | not (f : Formula α)
  | and (f g : Formula α)
  | or (f g : Formula α)

namespace Formula

variable {α β : Type}

/-- The atoms from left to right. -/
def atoms : Formula α → List α
  | atom a => [a]
  | not f => f.atoms
  | and f g | or f g => f.atoms ++ g.atoms

/-- The formula is true if its atoms are true or not as `p` says. -/
def Holds (p : α → Prop) : Formula α → Prop
  | atom a => p a
  | not f => ¬ f.Holds p
  | and f g => f.Holds p ∧ g.Holds p
  | or f g => f.Holds p ∨ g.Holds p

/-- Replaces the atoms from left to right. -/
def mapM {m : Type → Type} [Monad m] (replace : α → m β) : Formula α → m (Formula β)
  | atom a => return atom (← replace a)
  | not f => return not (← f.mapM replace)
  | and f g => return and (← f.mapM replace) (← g.mapM replace)
  | or f g => return or (← f.mapM replace) (← g.mapM replace)

/-- The formula as an expression. -/
def expr : Formula (Comparison Expr) → Expr
  | atom c => c.expr
  | not f => .unary .complement f.expr
  | and f g => .binary .conjoin f.expr g.expr
  | or f g => .binary .disjoin f.expr g.expr

section Evaluation

variable {σ : Type} {h : Handler σ} {s s' : σ}

/-- The comparisons of a formula that all have values are settled one after the other. -/
theorem exists_mapM {f : Formula (Comparison Expr)} {vs : List Value}
    (hok : Expr.evalAll h (f.atoms.map Comparison.expr) s = (.ok vs, s')) :
    ∃ g, f.mapM (Comparison.settle h) s = (.ok g, s') := by
  induction f generalizing s s' vs with
  | atom c =>
    obtain ⟨v, rest, u, -, hv, hrest⟩ := Expr.of_evalAll_cons hok
    cases hrest
    obtain ⟨d, hd⟩ := Comparison.exists_settle hv
    exact ⟨atom d, Action.bind_of_ok hd⟩
  | not f ih =>
    obtain ⟨g, hg⟩ := ih hok
    exact ⟨not g, Action.bind_of_ok hg⟩
  | and f f' ih ih' | or f f' ih ih' =>
    rw [atoms, List.map_append] at hok
    obtain ⟨ws, ws', u, -, hfirst, hsecond⟩ := Expr.of_evalAll_append hok
    obtain ⟨g, hg⟩ := ih hfirst
    obtain ⟨g', hg'⟩ := ih' hsecond
    exact ⟨_, (Action.bind_of_ok hg).trans (Action.bind_of_ok hg')⟩

/-- An operator that gives a truth value on the truth values of its operands. -/
theorem eval_binary {op : BinaryOp} {l r : Expr} {p q t : Bool} {u : σ}
    (hop : op.apply (.ofBool p) (.ofBool q) = .ok (.ofBool t))
    (hl : l.eval h s = (.ok (.ofBool p), u)) (hr : r.eval h u = (.ok (.ofBool q), s')) :
    (Expr.binary op l r).eval h s = (.ok (.ofBool t), s') := by
  rw [Expr.eval, Action.bind_of_ok hl, Action.bind_of_ok hr, hop]
  rfl

/-- A formula whose comparisons are settled has a truth value. The induction is on the formula: each
operator meets truth values only. -/
theorem eval_expr {f : Formula (Comparison Expr)} {g : Formula (Comparison Value)}
    (hok : f.mapM (Comparison.settle h) s = (.ok g, s')) :
    ∃ p : Bool, (p = true ↔ g.Holds Comparison.Says) ∧ f.expr.eval h s = (.ok (.ofBool p), s') := by
  induction f generalizing s s' g with
  | atom c =>
    obtain ⟨d, u, hd, hpure⟩ := Action.of_bind_eq_ok hok
    cases hpure
    exact Comparison.eval_expr hd
  | not f ih =>
    obtain ⟨g, u, hg, hpure⟩ := Action.of_bind_eq_ok hok
    cases hpure
    obtain ⟨p, hp, heval⟩ := ih hg
    refine ⟨!p, ?_, ?_⟩
    · rw [Holds, ← hp, Bool.not_eq_true', Bool.not_eq_true]
    · rw [expr, Expr.eval, Action.bind_of_ok heval, UnaryOp.apply, Value.complement_ofBool]
      rfl
  | and f f' ih ih' =>
    obtain ⟨g, u, hg, hrest⟩ := Action.of_bind_eq_ok hok
    obtain ⟨g', u', hg', hpure⟩ := Action.of_bind_eq_ok hrest
    cases hpure
    obtain ⟨p, hp, heval⟩ := ih hg
    obtain ⟨p', hp', heval'⟩ := ih' hg'
    refine ⟨p && p', ?_, eval_binary (Value.conjoin_ofBool p p') heval heval'⟩
    rw [Holds, ← hp, ← hp', Bool.and_eq_true]
  | or f f' ih ih' =>
    obtain ⟨g, u, hg, hrest⟩ := Action.of_bind_eq_ok hok
    obtain ⟨g', u', hg', hpure⟩ := Action.of_bind_eq_ok hrest
    cases hpure
    obtain ⟨p, hp, heval⟩ := ih hg
    obtain ⟨p', hp', heval'⟩ := ih' hg'
    refine ⟨p || p', ?_, eval_binary (Value.disjoin_ofBool p p') heval heval'⟩
    rw [Holds, ← hp, ← hp', Bool.or_eq_true]

/-- IF with a condition that has a truth value. -/
theorem exec_ifThen {condition : Expr} {p : Bool}
    (hcondition : condition.eval h s = (.ok (.ofBool p), s')) (consequent : Statement)
    (patience : Nat) :
    (Statement.ifThen condition consequent).exec h patience s =
      if p then consequent.exec h patience s' else h .done .skipLine s' := by
  rw [Statement.exec, Action.bind_of_ok hcondition, Value.isTrue_ofBool]
  cases p <;> rfl

end Evaluation

/-- Comparisons joined by AND, OR and NOT are a formula of propositional logic. If from `s` on all the
comparisons of the formula have values, one after the other, then so has the formula: -1 if it is true
and 0 if it is not, where its atoms are true or not by what they say of the values of their operands. IF
carries out its statement exactly if the formula is true. Of the six comparisons, each is the negation of
its opposite on values of one type that are not not-a-number. -/
theorem eval_truth {σ : Type} (h : Handler σ) (f : Formula (Comparison Expr)) (vs : List Value)
    (s s' : σ) (hok : Expr.evalAll h (f.atoms.map Comparison.expr) s = (.ok vs, s')) :
    (∃ g : Formula (Comparison Value), f.mapM (Comparison.settle h) s = (.ok g, s') ∧
      (∃ x : Float, f.expr.eval h s = (.ok (.number x), s') ∧ (x = -1 ∨ x = 0) ∧
        (x = -1 ↔ g.Holds Comparison.Says)) ∧
      ∀ (consequent : Statement) (patience : Nat),
        (g.Holds Comparison.Says → (Statement.ifThen f.expr consequent).exec h patience s =
          consequent.exec h patience s') ∧
        (¬ g.Holds Comparison.Says → (Statement.ifThen f.expr consequent).exec h patience s =
          h .done .skipLine s')) ∧
    ∀ (r : Relation) (a b : Value), a.isText = b.isText → a.isNaN = false → b.isNaN = false →
      ∃ p : Bool, Value.compare r a b = .ok (.ofBool p) ∧
        Value.compare r.opposite a b = .ok (.ofBool !p) := by
  refine ⟨?_, fun r a b htypes ha hb => Value.compare_opposite htypes ha hb r⟩
  obtain ⟨g, hg⟩ := exists_mapM hok
  obtain ⟨p, hp, heval⟩ := eval_expr hg
  refine ⟨g, hg, ?_, fun consequent patience => ?_⟩
  · obtain ⟨x, hx, htwo, htrue⟩ := Value.exists_number_ofBool p
    exact ⟨x, hx ▸ heval, htwo, htrue.trans hp⟩
  · have hif := exec_ifThen heval consequent patience
    refine ⟨fun hholds => ?_, fun hholds => ?_⟩
    · rw [hif, if_pos (hp.mpr hholds)]
    · rw [hif, if_neg fun htrue => hholds (hp.mp htrue)]

/-- `NOT "B" < "A" AND (1 > 2 OR 3 = 3)`. -/
def mixed : Formula (Comparison Expr) :=
  and (not (atom ⟨.less, .literal (.text "B"), .literal (.text "A")⟩))
    (or (atom ⟨.greater, .literal (.number 1), .literal (.number 2)⟩)
      (atom ⟨.equal, .literal (.number 3), .literal (.number 3)⟩))

/-- The condition is true, so IF carries out its statement. -/
theorem eval_truth_mixed :
    mixed.expr.eval Machine.perform (.new {} 0 10) = (.ok (.number (-1)), .new {} 0 10) ∧
      (Statement.ifThen mixed.expr .finish).exec Machine.perform 0 (.new {} 0 10) =
        Statement.finish.exec Machine.perform 0 (.new {} 0 10) := by
  have hok : Expr.evalAll Machine.perform (mixed.atoms.map Comparison.expr) (.new {} 0 10) =
      (.ok [.ofBool false, .ofBool false, .ofBool true], .new {} 0 10) := rfl
  obtain ⟨⟨g, hg, ⟨x, heval, -, hx⟩, hif⟩, -⟩ := eval_truth Machine.perform mixed _ _ _ hok
  have hsettled : mixed.mapM (Comparison.settle Machine.perform) (.new {} 0 10) =
      (.ok (and (not (atom ⟨.less, .text "B", .text "A"⟩))
        (or (atom ⟨.greater, .number 1, .number 2⟩) (atom ⟨.equal, .number 3, .number 3⟩))),
        .new {} 0 10) := rfl
  cases hg.symm.trans hsettled
  have hholds : Holds Comparison.Says (and (not (atom ⟨.less, .text "B", .text "A"⟩))
      (or (atom ⟨.greater, .number 1, .number 2⟩) (atom ⟨.equal, .number 3, .number 3⟩))) := by
    refine ⟨?_, .inr ?_⟩
    · change ¬ "B" < "A"
      decide
    · change ((3 : Float) == 3) = true
      rfl
  rw [heval, hx.mpr hholds]
  exact ⟨rfl, (hif .finish 0).1 hholds⟩

end Formula

end CommodoreBasic
