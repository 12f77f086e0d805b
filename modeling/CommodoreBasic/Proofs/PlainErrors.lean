import CommodoreBasic.Builtin.Apply
import CommodoreBasic.Statement.Exec

/-!
# Plain errors

Nothing but its kind is known of an error when it is raised. Where it happened is added once, when a
turn is over, and a detail is given only for lines that cannot be read. What operators, functions and
conversions of values raise is plain, and sequencing adds nothing to it.
-/

namespace CommodoreBasic

/-- Nothing but the kind is known of the error, if there is one. -/
def Plain {α : Type} (r : Except Error α) : Prop :=
  ∀ e, r = .error e → e.line = none ∧ e.detail = ""

namespace Plain

variable {α β : Type}

/-- A value is no error. -/
@[simp] theorem ok (a : α) : Plain (.ok a : Except Error α) := nofun

/-- The same with the notation of the monad. -/
@[simp] theorem pure (a : α) : Plain (pure a : Except Error α) := ok a

/-- An error of some kind is plain, since nothing has been added to it. -/
@[simp] theorem throw {k : ErrorKind} : Plain (throw { kind := k } : Except Error α) := by
  rintro e ⟨⟩
  exact ⟨rfl, rfl⟩

/-- An error is plain whatever was to be computed. -/
theorem cast {e : Error} (h : Plain (.error e : Except Error α)) :
    Plain (.error e : Except Error β) := by
  rintro _ ⟨⟩
  exact h e rfl

/-- Sequences of computations that fail plainly fail plainly. -/
theorem bind {x : Except Error α} {f : α → Except Error β} (hx : Plain x)
    (hf : ∀ a, Plain (f a)) : Plain (x >>= f) := by
  cases x with
  | error e => exact hx.cast
  | ok a => exact hf a

/-- So does a choice between two of them. -/
theorem ite {c : Prop} [Decidable c] {x y : Except Error α} (hx : Plain x) (hy : Plain y) :
    Plain (if c then x else y) := by
  split
  · exact hx
  · exact hy

/-- So does going through a list with them. -/
theorem mapM {f : α → Except Error β} (hf : ∀ a, Plain (f a)) (as : List α) :
    Plain (as.mapM f) := by
  induction as with
  | nil => exact pure []
  | cons a as ih =>
    rw [List.mapM_cons]
    exact (hf a).bind fun b => ih.bind fun bs => pure (b :: bs)

end Plain

/-! ## Values -/

namespace Value

variable (v w : Value)

/-- The wrong type is a plain error. -/
theorem plain_toNumber : Plain v.toNumber := by
  cases v with
  | number x => exact .ok x
  | text s => exact .throw

/-- So it is for a number in place of a text. -/
theorem plain_toText : Plain v.toText := by
  cases v with
  | number x => exact .throw
  | text s => exact .ok s

/-- A number that is no word is a plain error. -/
theorem plain_toWord : Plain v.toWord := by
  refine v.plain_toNumber.bind fun x => .ite (.pure 0) ?_
  split
  · exact .ite (.pure _) .throw
  · exact .throw

/-- So is one that is no byte. -/
theorem plain_toByte : Plain v.toByte := by
  refine v.plain_toNumber.bind fun x => ?_
  split
  · exact .ite (.pure _) .throw
  · exact .throw

/-- So is one that is no subscript. -/
theorem plain_toSubscript : Plain v.toSubscript := by
  refine v.plain_toNumber.bind fun x => ?_
  split
  · exact .ite (.pure _) .throw
  · exact .throw

/-- An overflow is a plain error. -/
theorem plain_finite (x : Float) : Plain (finite x) := .ite (.ok _) .throw

/-- A sum fails plainly. -/
theorem plain_add : Plain (v.add w) := by
  cases v <;> cases w <;> rw [add]
  · exact plain_finite _
  · split
    · exact plain_finite _
    · exact .throw
  · split
    · exact plain_finite _
    · exact .throw
  · split
    · exact plain_finite _
    · exact .ok _

/-- So does a comparison. -/
theorem plain_compare (r : Relation) : Plain (compare r v w) := by
  cases v <;> cases w <;> simp [compare]

end Value

/-- So do the operators with one operand. -/
theorem UnaryOp.plain_apply (op : UnaryOp) (v : Value) : Plain (op.apply v) := by
  cases op with
  | negate => exact v.plain_toNumber.bind fun x => .pure _
  | complement => exact v.plain_toWord.bind fun x => .pure _

/-- So do the operators with two operands. -/
theorem BinaryOp.plain_apply (op : BinaryOp) (v w : Value) : Plain (op.apply v w) := by
  have hnumbers {f : Float → Float → Except Error Value} (hf : ∀ x y, Plain (f x y)) :
      Plain (v.toNumber >>= fun x => w.toNumber >>= f x) :=
    v.plain_toNumber.bind fun x => w.plain_toNumber.bind (hf x)
  cases op with
  | add => exact v.plain_add w
  | subtract => exact hnumbers fun x y => Value.plain_finite (x - y)
  | multiply => exact hnumbers fun x y => Value.plain_finite (x * y)
  | divide => exact hnumbers fun x y => .ite .throw (Value.plain_finite _)
  | power => exact hnumbers fun x y => .ite .throw (.ite .throw (Value.plain_finite _))
  | conjoin | disjoin => exact v.plain_toWord.bind fun x => w.plain_toWord.bind fun y => .pure _

/-! ## Functions and statements -/

namespace Builtin

/-- So do the built-in functions. -/
theorem plain_evaluate (f : Builtin) (vs : List Value) : Plain (f.evaluate vs) := by
  have hnumber (v : Value) {g : Float → Except Error Value} (hg : ∀ x, Plain (g x)) :
      Plain (v.toNumber >>= g) := v.plain_toNumber.bind hg
  have htext (v : Value) {g : String → Except Error Value} (hg : ∀ s, Plain (g s)) :
      Plain (v.toText >>= g) := v.plain_toText.bind hg
  have hbyte (v : Value) {g : Nat → Except Error Value} (hg : ∀ n, Plain (g n)) :
      Plain (v.toByte >>= g) := v.plain_toByte.bind hg
  unfold evaluate
  split
  case h_1 | h_2 | h_3 | h_4 | h_5 | h_6 | h_16 => exact hnumber _ fun x => .pure _
  case h_7 | h_8 => exact hnumber _ fun x => Value.plain_finite _
  case h_9 => exact .pure _
  case h_10 | h_11 => exact hnumber _ fun x => .ite .throw (.pure _)
  case h_12 | h_14 => exact htext _ fun s => .pure _
  case h_13 =>
    refine htext _ fun s => ?_
    split
    · exact .pure _
    · exact .throw
  case h_15 | h_17 => exact hbyte _ fun n => .pure _
  case h_18 | h_19 => exact htext _ fun s => hbyte _ fun n => .pure _
  case h_20 =>
    refine htext _ fun s => hbyte _ fun start => .ite .throw ?_
    split
    · exact .pure _
    · exact hbyte _ fun n => .pure _
  case h_21 => exact .throw

/-- So do they with the generator. -/
theorem plain_apply (f : Builtin) (vs : List Value) (g : Random) : Plain (f.apply vs g).1 := by
  unfold apply
  split
  · exact .throw
  · split
    · next v _ _ =>
      cases v with
      | number x => exact .ok _
      | text s => exact .throw
    · exact plain_evaluate f vs

end Builtin

/-- A number that chooses no line is a plain error. -/
theorem Statement.plain_chosen (x : Float) (lines : List LineNumber) : Plain (chosen x lines) := by
  unfold chosen
  refine .ite (.ok _) ?_
  split
  · refine .ite .throw ?_
    split <;> exact .ok _
  · exact .throw

end CommodoreBasic
