import Mathlib.Algebra.Order.Floor.Ring
import Mathlib.Data.Rat.Floor
import CommodoreBasic.Proofs.EvaluationFrame
import CommodoreBasic.Proofs.StructuredLoops
import CommodoreBasic.Proofs.WholeFloats
import CommodoreBasic.Proofs.WholeLiterals

/-!
# Counted loops

`N=0: FOR I=a TO b STEP s: N=N+1: NEXT I` counts the rounds of its loop. Written with whole numbers
up to `2 ^ 51` it ends, whatever the direction of the step: `N` is the number of steps that fit between
the bounds, and one more for the first round, and `I` has kept the value of the last round. All numbers
that come up are whole and below `2 ^ 53`, so that adding and comparing them is exact. The rounds are
followed in the block that the program consists of, by induction on how many are left.
-/

namespace CommodoreBasic

open CommodoreBasic.Action CommodoreBasic.Number

/-- The numeral of a whole number has its value. -/
theorem Expr.eval_whole (n : Int) (σ : Machine) :
    (Expr.whole n).eval Machine.perform σ = (.ok (.number (Float.ofInt n)), σ) := by
  cases n <;> rfl

/-- And that value is a number. -/
theorem Expr.evalNumber_whole (n : Int) (σ : Machine) :
    (Expr.whole n).evalNumber Machine.perform σ = (.ok (Float.ofInt n), σ) := by
  rw [evalNumber, bind_of_ok (eval_whole n σ)]
  rfl

/-! ## Ticks -/

namespace Timed

variable {σ : Machine}

/-- An action takes one tick. -/
theorem step_of_ok {α : Type} {x : Action Machine α} {r : α} {σ' : Machine}
    (hfree : σ.interrupted = false) (h : x σ.advanceClock = (.ok r, σ')) (left : Nat) :
    step x (left + 1) σ = .ended r left σ' := by
  have hx : unlessBreak x σ = (.ok r, σ') := by
    rw [unlessBreak, hfree, if_neg Bool.false_ne_true, h]
  unfold step
  dsimp only
  rw [hx]

/-- What has ended is followed by the rest, with the ticks that are left. -/
theorem bind_of_ended {α β : Type} {x : Timed α} {f : α → Timed β} {r : α} {k left : Nat}
    {σ' : Machine} (h : x k σ = .ended r left σ') : (x >>= f) k σ = f r left σ' := by
  change Timed.bind x f k σ = _
  rw [Timed.bind, h]

/-- One round. -/
theorem repeatUpTo_succ {body : Timed Unit} {x : Action Machine Bool} {again : Bool} {k left : Nat}
    {σ₁ σ₂ : Machine} (hbody : body k σ = .ended () (left + 1) σ₁) (hfree : σ₁.interrupted = false)
    (hx : x σ₁.advanceClock = (.ok again, σ₂)) (limit : Nat) :
    repeatUpTo body (step x) (limit + 1) k σ =
      if again then repeatUpTo body (step x) limit left σ₂ else .ended () left σ₂ := by
  have hnext := step_of_ok hfree hx left
  rw [repeatUpTo, bind_of_ended hbody, bind_of_ended hnext]
  cases again <;> rfl

end Timed

namespace Block

/-! ## How many rounds there are -/

/-- How often a loop from `a` to `b` in steps of `s` runs its body. -/
def rounds (a b s : Int) : Int :=
  if 0 ≤ ((b - a : Int) : ℚ) / s then ⌊((b - a : Int) : ℚ) / s⌋ + 1 else 0

/-- The value is not beyond the limit, in the direction of the step. -/
def Within (b s x : Int) : Prop := if 0 < s then x ≤ b else b ≤ x

/-- Whether a round is to be made can be computed. -/
instance (b s x : Int) : Decidable (Within b s x) :=
  inferInstanceAs (Decidable (if 0 < s then x ≤ b else b ≤ x))

variable {a b s : Int}

/-- The rounds are those in which the counter is within the limit. -/
theorem lt_rounds_iff (hs : s ≠ 0) {k : Int} (hk : 0 ≤ k) :
    k < rounds a b s ↔ Within b s (a + k * s) := by
  have hfloor : k < rounds a b s ↔ (k : ℚ) ≤ ((b - a : Int) : ℚ) / s := by
    rw [rounds]
    split
    case isTrue => rw [Int.lt_add_one_iff, Int.le_floor]
    case isFalse hneg =>
      have hk' : (0 : ℚ) ≤ k := Int.cast_nonneg hk
      exact iff_of_false (not_lt.mpr hk) fun hle => hneg (hk'.trans hle)
  rw [hfloor, Within]
  rcases lt_or_gt_of_ne hs with hneg | hpos
  · have hneg' : (s : ℚ) < 0 := Int.cast_lt_zero.mpr hneg
    rw [if_neg (not_lt.mpr hneg.le), le_div_iff_of_neg hneg', ← Int.cast_mul, Int.cast_le]
    omega
  · have hpos' : (0 : ℚ) < s := Int.cast_pos.mpr hpos
    rw [if_pos hpos, le_div_iff₀ hpos', ← Int.cast_mul, Int.cast_le]
    omega

/-- There are no fewer rounds than none. -/
theorem rounds_nonneg (a b s : Int) : 0 ≤ rounds a b s := by
  rw [rounds]
  split
  case isTrue h =>
    have hfloor : 0 ≤ ⌊((b - a : Int) : ℚ) / s⌋ := Int.floor_nonneg.mpr h
    omega
  case isFalse => exact le_rfl

/-- In every round the counter is between the first value and the limit. -/
theorem natAbs_counter_le (hs : s ≠ 0) (ha : a.natAbs ≤ 2 ^ 51) (hb : b.natAbs ≤ 2 ^ 51) {k : Int}
    (hk : 0 ≤ k) (hround : k < rounds a b s) : (a + k * s).natAbs ≤ 2 ^ 51 := by
  have hwithin := (lt_rounds_iff hs hk).mp hround
  rw [Within] at hwithin
  split at hwithin
  case isTrue hpos =>
    have hgrown : 0 ≤ k * s := Int.mul_nonneg hk hpos.le
    omega
  case isFalse hneg =>
    have hshrunk : k * s ≤ 0 := Int.mul_nonpos_of_nonneg_of_nonpos hk (not_lt.mp hneg)
    omega

/-- Small bounds allow few rounds. -/
theorem rounds_le (hs : s ≠ 0) (ha : a.natAbs ≤ 2 ^ 51) (hb : b.natAbs ≤ 2 ^ 51) :
    rounds a b s ≤ 2 ^ 52 + 1 := by
  by_contra hmany
  have hcounter := natAbs_counter_le hs ha hb (k := 2 ^ 52 + 1) (by decide) (by omega)
  omega

/-! ## What the statements do -/

/-- A whole counter passes its limit exactly if another round is to be made. -/
theorem passes_ofInt {x : Int} (hb : b.natAbs ≤ 2 ^ 51) (hs : s.natAbs ≤ 2 ^ 51)
    (hx : x.natAbs ≤ 2 ^ 52) :
    passes (Float.ofInt b) (Float.ofInt s) (Float.ofInt x) = true ↔ Within b s x := by
  have hpos : Float.ofInt s > 0 ↔ 0 < s := ofInt_lt (x := 0) (by decide) (by omega)
  rw [passes, Within]
  by_cases h : 0 < s
  · rw [if_pos h, if_pos (hpos.mpr h), decide_eq_true_iff, ofInt_le (by omega) (by omega)]
  · rw [if_neg h, if_neg (mt hpos.mp h), decide_eq_true_iff]
    exact ofInt_le (by omega) (by omega)

/-- Numbers can be stored under the name, which is its own folded name. -/
structure IsNumeric (key : Name) : Prop where
  fold : key.fold = key
  reserved : key.isReserved = false
  text : key.isText = false

/-- The counter is a numeric variable. -/
theorem isNumeric_counter : IsNumeric "I" := by constructor <;> decide

/-- So is the variable that counts the rounds. -/
theorem isNumeric_count : IsNumeric "N" := by constructor <;> decide

/-- The machine with a whole number stored. -/
def withNumber (key : Name) (x : Int) (σ : Machine) : Machine :=
  { σ with memory :=
      { σ.memory with scalars := σ.memory.scalars.insert key (.number (Float.ofInt x)) } }

variable {key : Name} {σ : Machine} {i n : Int}

/-- A number is stored in a numeric variable. -/
theorem store_number (hkey : IsNumeric key) (x : Int)
    (hroom : σ.memory.scalars.size < Memory.scalarCapacity) :
    Machine.onMemory (Memory.store key (.number (Float.ofInt x))) σ =
      (.ok (), withNumber key x σ) := by
  have hreserved : key.fold.isReserved = false := by rw [hkey.fold, hkey.reserved]
  have hfits : (Value.number (Float.ofInt x)).fits key.fold = true := by
    rw [hkey.fold, Value.fits, hkey.text]
    rfl
  rw [Machine.onMemory_apply, Memory.store_of_room hreserved hfits hroom, hkey.fold]
  rfl

/-- One variable has the number, and all others are as they were. -/
theorem fetch_withNumber (hkey : IsNumeric key) (x : Int) (n : Name) :
    (withNumber key x σ).memory.fetch n =
      if n.fold = key then .number (Float.ofInt x) else σ.memory.fetch n := by
  have hreserved : key.fold.isReserved = false := by rw [hkey.fold, hkey.reserved]
  have hinsert := Memory.fetch_insert (m := σ.memory) (v := .number (Float.ofInt x)) hreserved n
  rwa [hkey.fold] at hinsert

/-- The clock is none of the variables. -/
theorem fetch_advanceClock (hkey : IsNumeric key) (σ : Machine) :
    σ.advanceClock.memory.fetch key = σ.memory.fetch key := by
  have hreserved : key.fold.isReserved = false := by rw [hkey.fold, hkey.reserved]
  rw [Memory.fetch_of_not_reserved hreserved, Memory.fetch_of_not_reserved hreserved]
  rfl

/-- A variable that is there takes no more room. -/
theorem size_withNumber (hknown : key ∈ σ.memory.scalars) (x : Int) :
    (withNumber key x σ).memory.scalars.size = σ.memory.scalars.size := by
  rw [withNumber, Std.HashMap.size_insert, if_pos hknown]

/-- The variables of the loop: the counter is `i`, `n` rounds have been counted, and there is room to
store either again. -/
structure Counted (i n : Int) (σ : Machine) : Prop where
  counter : σ.memory.fetch "I" = .number (Float.ofInt i)
  count : σ.memory.fetch "N" = .number (Float.ofInt n)
  known : "I" ∈ σ.memory.scalars ∧ "N" ∈ σ.memory.scalars
  room : σ.memory.scalars.size < Memory.scalarCapacity
  free : σ.interrupted = false

/-- The clock has nothing to do with the variables. -/
theorem Counted.advanceClock (h : Counted i n σ) : Counted i n σ.advanceClock where
  counter := (fetch_advanceClock isNumeric_counter σ).trans h.counter
  count := (fetch_advanceClock isNumeric_count σ).trans h.count
  known := h.known
  room := h.room
  free := h.free

/-- The counter may be set to another number. -/
theorem Counted.setCounter (h : Counted i n σ) (x : Int) : Counted x n (withNumber "I" x σ) where
  counter := (fetch_withNumber isNumeric_counter x "I").trans (if_pos (by decide))
  count := ((fetch_withNumber isNumeric_counter x "N").trans (if_neg (by decide))).trans h.count
  known := ⟨Std.HashMap.mem_insert_self, Std.HashMap.mem_insert.mpr (.inr h.known.2)⟩
  room := (size_withNumber h.known.1 x).trans_lt h.room
  free := h.free

/-- So may the number of rounds. -/
theorem Counted.setCount (h : Counted i n σ) (x : Int) : Counted i x (withNumber "N" x σ) where
  counter := ((fetch_withNumber isNumeric_count x "I").trans (if_neg (by decide))).trans h.counter
  count := (fetch_withNumber isNumeric_count x "N").trans (if_pos (by decide))
  known := ⟨Std.HashMap.mem_insert.mpr (.inr h.known.1), Std.HashMap.mem_insert_self⟩
  room := (size_withNumber h.known.2 x).trans_lt h.room
  free := h.free

/-- The statement of the body counts a round. -/
theorem exec_count (h : Counted i n σ) (hn : 0 ≤ n ∧ n ≤ 2 ^ 52) (patience : Nat) :
    (Statement.assign (.scalar "N") (.binary .add (.scalar "N") (Expr.whole 1))).exec
      Machine.perform patience σ = (.ok (), withNumber "N" (n + 1) σ) := by
  have hsum : Value.add (.number (Float.ofInt n)) (.number (Float.ofInt 1)) =
      .ok (.number (Float.ofInt (n + 1))) := by
    rw [Value.add, Value.finite, ofInt_add (by omega) (by omega) (by omega),
      if_pos (isFinite_ofInt (by omega))]
  have hname : (Expr.scalar "N").eval Machine.perform σ = (.ok (.number (Float.ofInt n)), σ) := by
    rw [← h.count]
    rfl
  have heval : (Expr.binary .add (.scalar "N") (Expr.whole 1)).eval Machine.perform σ =
      (.ok (.number (Float.ofInt (n + 1))), σ) := by
    rw [Expr.eval, bind_of_ok hname, bind_of_ok (Expr.eval_whole 1 σ), BinaryOp.apply, hsum]
    rfl
  have hstore := store_number isNumeric_count (n + 1) h.room
  rw [Statement.exec, bind_of_ok heval]
  exact hstore

/-- First the number of rounds is set to none. -/
theorem exec_reset (hroom : σ.memory.scalars.size < Memory.scalarCapacity) (patience : Nat) :
    (Statement.assign (.scalar "N") (Expr.whole 0)).exec Machine.perform patience σ =
      (.ok (), withNumber "N" 0 σ) := by
  have hstore := store_number isNumeric_count 0 hroom
  rw [Statement.exec, bind_of_ok (Expr.eval_whole 0 σ)]
  exact hstore

/-- FOR starts the counter and has whole limits. -/
theorem enter_whole (hs : s ≠ 0) (hs' : s.natAbs ≤ 2 ^ 51)
    (hroom : σ.memory.scalars.size < Memory.scalarCapacity) :
    enter "I" (Expr.whole a) (Expr.whole b) (some (Expr.whole s)) σ =
      (.ok (Float.ofInt a, Float.ofInt b, Float.ofInt s), withNumber "I" a σ) := by
  have hstep : (Float.ofInt s == 0) = false := by
    rw [Bool.eq_false_iff]
    exact fun heq => hs ((ofInt_beq (y := 0) (by omega) (by decide)).mp heq)
  have hset : setCounter "I" (Float.ofInt a) (Float.ofInt s) σ = (.ok (), withNumber "I" a σ) := by
    have hstore := store_number isNumeric_counter a hroom
    rw [Machine.setCounter_apply, hstep, if_neg Bool.false_ne_true]
    exact hstore
  rw [enter, bind_of_ok (Expr.evalNumber_whole a σ), bind_of_ok (Expr.evalNumber_whole b σ)]
  dsimp only
  rw [bind_of_ok (Expr.evalNumber_whole s σ), bind_of_ok hset]
  rfl

section Advance

variable (h : Counted i n σ) (hi : i.natAbs ≤ 2 ^ 51) (hb : b.natAbs ≤ 2 ^ 51)
  (hs : s.natAbs ≤ 2 ^ 51)
include h hi hb hs

/-- NEXT stores the next value of the counter if it is within the limit. -/
theorem advance_of_within (hwithin : Within b s (i + s)) :
    advance "I" (Float.ofInt b) (Float.ofInt s) σ = (.ok true, withNumber "I" (i + s) σ) := by
  have hstore := store_number isNumeric_counter (i + s) h.room
  unfold advance
  rw [isNumeric_counter.fold, h.counter]
  dsimp only
  rw [ofInt_add (by omega) (by omega) (by omega),
    if_pos ((passes_ofInt hb hs (by omega)).mpr hwithin), hstore]

/-- Else it leaves the counter as it is. -/
theorem advance_of_not_within (hbeyond : ¬ Within b s (i + s)) :
    advance "I" (Float.ofInt b) (Float.ofInt s) σ = (.ok false, σ) := by
  unfold advance
  rw [isNumeric_counter.fold, h.counter]
  dsimp only
  rw [ofInt_add (by omega) (by omega) (by omega),
    if_neg (mt (passes_ofInt hb hs (by omega)).mp hbeyond)]

end Advance

/-! ## The run -/

/-- The body of the loop. -/
def countRound : Block :=
  .simple (.assign (.scalar "N") (.binary .add (.scalar "N") (Expr.whole 1))) .done

/-- One round adds one to the number of rounds. -/
theorem run_countRound (h : Counted i n σ) (hn : 0 ≤ n ∧ n ≤ 2 ^ 52) (left : Nat) :
    countRound.run (left + 1) σ = .ended () left (withNumber "N" (n + 1) σ.advanceClock) := by
  have hstep := Timed.step_of_ok h.free (x := fun m => _)
    (exec_count h.advanceClock hn σ.advanceClock.patience) left
  rw [countRound, run]
  exact Timed.bind_of_ended hstep

/-- The rounds of a loop with the limit `b` and the step `s`. -/
def countRounds (b s : Int) : (limit : Nat) → Timed Unit :=
  Timed.repeatUpTo countRound.run (Timed.step (advance "I" (Float.ofInt b) (Float.ofInt s)))

/-- After a round the counter has gone one step on. -/
theorem counter_add_step (a s : Int) (k : Nat) : a + k * s + s = a + (k + 1 : Nat) * s := by
  rw [Nat.cast_succ, Int.add_mul, Int.one_mul, Int.add_assoc]

section Rounds

variable (hs : s ≠ 0) (ha : a.natAbs ≤ 2 ^ 51) (hb : b.natAbs ≤ 2 ^ 51) (hs' : s.natAbs ≤ 2 ^ 51)
include hs ha hb hs'

/-- A round that is not the last leads to the next. It takes two ticks. -/
theorem countRounds_of_lt {k : Nat} (hk : (k + 1 : Nat) < rounds a b s) (h : Counted (a + k * s) k σ)
    (limit left : Nat) :
    ∃ σ', countRounds b s (limit + 1) (left + 2) σ = countRounds b s limit left σ' ∧
      Counted (a + (k + 1 : Nat) * s) (k + 1 : Nat) σ' := by
  have hle := rounds_le hs ha hb
  have hcounter := natAbs_counter_le hs ha hb (k := k) (by omega) (by omega)
  have hwithin : Within b s (a + k * s + s) := by
    rw [counter_add_step]
    exact (lt_rounds_iff hs (by omega)).mp hk
  have hbody := run_countRound h (by omega) (left + 1)
  have hcounted := h.advanceClock.setCount (k + 1)
  have hadvance := advance_of_within hcounted.advanceClock hcounter hb hs' hwithin
  refine ⟨_, (Timed.repeatUpTo_succ hbody hcounted.free hadvance limit).trans (if_pos rfl), ?_⟩
  rw [← counter_add_step]
  exact hcounted.advanceClock.setCounter _

/-- The last round leaves the counter within the limit. -/
theorem countRounds_of_eq {k : Nat} (hk : (k + 1 : Nat) = rounds a b s) (h : Counted (a + k * s) k σ)
    (limit left : Nat) :
    ∃ σ', countRounds b s (limit + 1) (left + 2) σ = .ended () left σ' ∧
      Counted (a + k * s) (k + 1 : Nat) σ' := by
  have hle := rounds_le hs ha hb
  have hcounter := natAbs_counter_le hs ha hb (k := k) (by omega) (by omega)
  have hbeyond : ¬ Within b s (a + k * s + s) := by
    rw [counter_add_step, ← lt_rounds_iff hs (by omega)]
    omega
  have hbody := run_countRound h (by omega) (left + 1)
  have hcounted := h.advanceClock.setCount (k + 1)
  have hadvance := advance_of_not_within hcounted.advanceClock hcounter hb hs' hbeyond
  exact ⟨_, (Timed.repeatUpTo_succ hbody hcounted.free hadvance limit).trans
    (if_neg Bool.false_ne_true), hcounted.advanceClock⟩

/-- From the beginning of round `k` on, counted from zero, the rounds are counted up to the last. -/
theorem countRounds_ended {k more : Nat} (hmore : (k + more + 1 : Nat) = rounds a b s) {limit : Nat}
    (hlimit : more < limit) (left : Nat) (h : Counted (a + k * s) k σ) :
    ∃ σ', countRounds b s limit (left + 2 * (more + 1)) σ = .ended () left σ' ∧
      Counted (a + (rounds a b s - 1) * s) (rounds a b s) σ' := by
  induction more generalizing k limit σ with
  | zero =>
    obtain ⟨limit, rfl⟩ : ∃ l, limit = l + 1 := ⟨limit - 1, by omega⟩
    obtain ⟨σ', hrun, hcounted⟩ := countRounds_of_eq hs ha hb hs' (by omega) h limit left
    refine ⟨σ', hrun, ?_⟩
    have hlast : rounds a b s - 1 = k := by omega
    rw [hlast, ← hmore]
    exact hcounted
  | succ more ih =>
    obtain ⟨limit, rfl⟩ : ∃ l, limit = l + 1 := ⟨limit - 1, by omega⟩
    obtain ⟨σ₁, hround, hcounted⟩ :=
      countRounds_of_lt hs ha hb hs' (by omega) h limit (left + 2 * (more + 1))
    have hfewer : more < limit := by omega
    obtain ⟨σ', hrun, hlast⟩ := ih (k := k + 1) (by omega) hfewer hcounted
    exact ⟨σ', hround.trans hrun, hlast⟩

end Rounds

/-- Counts in `N` the rounds of a loop from `a` to `b` in steps of `s`. -/
def counting (a b s : Int) : Block :=
  .simple (.assign (.scalar "N") (Expr.whole 0))
    (.loop "I" (Expr.whole a) (Expr.whole b) (some (Expr.whole s)) countRound (some "I") .done)

/-- The value that the loop leaves in its counter: that of the last round, or the first value if
there is no round. -/
def lastCounter (a b s : Int) : Int :=
  if rounds a b s = 0 then a else a + (rounds a b s - 1) * s

/-- A variable takes at most one more place. -/
theorem size_withNumber_le (key : Name) (x : Int) (σ : Machine) :
    (withNumber key x σ).memory.scalars.size ≤ σ.memory.scalars.size + 1 :=
  Std.HashMap.size_insert_le

/-- The machine after the first two statements. -/
def atFirstRound (a : Int) (σ : Machine) : Machine :=
  withNumber "I" a (withNumber "N" 0 σ.advanceClock).advanceClock

/-- The loop begins with its counter at the first value and no round counted. -/
theorem counted_start (hroom : σ.memory.scalars.size + 2 < Memory.scalarCapacity)
    (hfree : σ.interrupted = false) (a : Int) :
    Counted a 0 (atFirstRound a σ) := by
  have hcount : (withNumber "N" 0 σ.advanceClock).memory.fetch "N" = .number (Float.ofInt 0) :=
    (fetch_withNumber isNumeric_count 0 "N").trans (if_pos (by decide))
  have hknown : "N" ∈ (withNumber "N" 0 σ.advanceClock).memory.scalars :=
    Std.HashMap.mem_insert_self
  have hsize := size_withNumber_le "N" 0 σ.advanceClock
  have hfree' : (withNumber "N" 0 σ.advanceClock).interrupted = false := hfree
  unfold atFirstRound
  generalize withNumber "N" 0 σ.advanceClock = σ₁ at hcount hknown hsize hfree' ⊢
  have hsize' := size_withNumber_le "I" a σ₁.advanceClock
  exact
    { counter := (fetch_withNumber isNumeric_counter a "I").trans (if_pos (by decide))
      count := ((fetch_withNumber isNumeric_counter a "N").trans (if_neg (by decide))).trans
        ((fetch_advanceClock isNumeric_count σ₁).trans hcount)
      known := ⟨Std.HashMap.mem_insert_self, Std.HashMap.mem_insert.mpr (.inr hknown)⟩
      room := (hsize'.trans (Nat.succ_le_succ hsize)).trans_lt hroom
      free := hfree' }

/-- A loop that has set its counter runs its rounds if the first value is within the limit. -/
theorem run_loop_of_enter {counter : Name} {start limit : Expr} {step : Option Expr} {x y z : Float}
    {k left : Nat} {σ' : Machine} (body : Block) (closing : Option Name) (rest : Block)
    (h : Timed.step (enter counter start limit step) k σ = .ended (x, y, z) left σ') :
    (loop counter start limit step body closing rest).run k σ =
      (if passes y z x then
        Timed.repeatWhile body.run (Timed.step (advance counter y z)) >>= fun _ => rest.run
      else rest.run) left σ' := by
  rw [run]
  refine (Timed.bind_of_ended h).trans ?_
  dsimp only

/-- Two ticks lead to the first round, if there is one. -/
theorem run_counting_start (hs : s ≠ 0) (ha : a.natAbs ≤ 2 ^ 51) (hb : b.natAbs ≤ 2 ^ 51)
    (hs' : s.natAbs ≤ 2 ^ 51) (hroom : σ.memory.scalars.size + 2 < Memory.scalarCapacity)
    (hfree : σ.interrupted = false) (ticks : Nat) :
    (counting a b s).run (ticks + 2) σ =
      (if 0 < rounds a b s then
        Timed.repeatWhile countRound.run
          (Timed.step (advance "I" (Float.ofInt b) (Float.ofInt s))) >>= fun _ => done.run
      else done.run) ticks (atFirstRound a σ) := by
  have hcount := size_withNumber_le "N" 0 σ.advanceClock
  have hroom' : σ.advanceClock.memory.scalars.size + 2 < Memory.scalarCapacity := hroom
  have hreset := Timed.step_of_ok hfree (x := fun m => _)
    (exec_reset (by omega) σ.advanceClock.patience) (ticks + 1)
  have hroom'' : (withNumber "N" 0 σ.advanceClock).advanceClock.memory.scalars.size <
      Memory.scalarCapacity := hcount.trans_lt (by omega)
  have henter := Timed.step_of_ok (σ := withNumber "N" 0 σ.advanceClock) hfree
    (enter_whole (a := a) (b := b) hs hs' hroom'') ticks
  have hpasses : passes (Float.ofInt b) (Float.ofInt s) (Float.ofInt a) = true ↔
      0 < rounds a b s := by
    rw [passes_ofInt hb hs' (by omega), lt_rounds_iff hs le_rfl, Int.zero_mul, Int.add_zero]
  have hrun := (Timed.bind_of_ended (f := fun _ => _) hreset).trans
    (run_loop_of_enter countRound (some "I") done henter)
  simp only [hpasses] at hrun
  exact hrun

/-- The block ends with all rounds counted. -/
theorem run_counting (hs : s ≠ 0) (ha : a.natAbs ≤ 2 ^ 51) (hb : b.natAbs ≤ 2 ^ 51)
    (hs' : s.natAbs ≤ 2 ^ 51) (hroom : σ.memory.scalars.size + 2 < Memory.scalarCapacity)
    (hfree : σ.interrupted = false) (left : Nat) :
    ∃ ticks σ', (counting a b s).run ticks σ = .ended () left σ' ∧
      Counted (lastCounter a b s) (rounds a b s) σ' := by
  have hstart := counted_start hroom hfree a
  have hrun := run_counting_start hs ha hb hs' hroom hfree
  have hnonneg := rounds_nonneg a b s
  by_cases hsome : 0 < rounds a b s
  · obtain ⟨more, hmore⟩ : ∃ more : Nat, (0 + more + 1 : Nat) = rounds a b s :=
      ⟨(rounds a b s - 1).toNat, by omega⟩
    have hfirst : Counted (a + (0 : Nat) * s) (0 : Nat) (atFirstRound a σ) := by
      rw [Int.natCast_zero, Int.zero_mul, Int.add_zero]
      exact hstart
    -- the limit on the rounds is the number of ticks, of which every round takes two
    obtain ⟨σ', hrounds, hcounted⟩ := countRounds_ended hs ha hb hs' hmore
      (Nat.lt_succ_of_le (show more ≤ left + 2 * (more + 1) by omega)) left hfirst
    refine ⟨_, σ', (hrun (left + 2 * (more + 1))).trans ?_, ?_⟩
    · rw [if_pos hsome]
      exact Timed.bind_of_ended hrounds
    · rw [lastCounter, if_neg (by omega)]
      exact hcounted
  · have hnone : rounds a b s = 0 := by omega
    refine ⟨_, atFirstRound a σ, (hrun left).trans ?_, ?_⟩
    · rw [if_neg hsome]
      rfl
    · rw [lastCounter, hnone, if_pos rfl]
      exact hstart

/-! ## The program -/

/-- The text of a numbered line with the statements of `counting`. -/
def countingText (number : LineNumber) (a b s : Int) : String :=
  s!"{number} N=0: FOR I={a} TO {b} STEP {s}: N=N+1: NEXT I"

/-- The line behind its number. -/
def countingWords (a b s : Int) : List Char :=
  'N' :: '=' :: ((toString (0 : Int)).toList ++ ':' :: ' ' ::
    ((Token.keyword .FOR).shown.toList ++ ' ' :: 'I' :: '=' :: ((toString a).toList ++ ' ' ::
      ((Token.keyword .TO).shown.toList ++ ' ' :: ((toString b).toList ++ ' ' ::
        ((Token.keyword .STEP).shown.toList ++ ' ' :: ((toString s).toList ++ ':' ::
          " N=N+1: NEXT I".toList)))))))

/-- A line is its number, a blank and its words. -/
theorem toList_countingText (number : LineNumber) (a b s : Int) :
    (countingText number a b s).toList = (toString number).toList ++ ' ' :: countingWords a b s := by
  have htext : countingText number a b s = toString number ++ " N=0: FOR I=" ++ toString a ++
      " TO " ++ toString b ++ " STEP " ++ toString s ++ ": N=N+1: NEXT I" := rfl
  rw [htext]
  simp only [String.toList_append, List.append_assoc]
  rfl

/-- The words of the loop are on one line. -/
theorem isLineEnd_of_mem_countingWords (a b s : Int) :
    ∀ c ∈ countingWords a b s, Text.isLineEnd c = false := by
  have hfixed {w : String} (h : w.toList.all (! Text.isLineEnd ·) = true) :
      ∀ c ∈ w.toList, Text.isLineEnd c = false := by
    intro c hc
    simpa using List.all_eq_true.mp h c hc
  have hwhole := Token.isLineEnd_of_mem_whole
  simp only [countingWords, List.forall_mem_append, List.forall_mem_cons]
  exact ⟨rfl, rfl, hwhole 0, rfl, rfl, hfixed (by decide), rfl, rfl, rfl, hwhole a, rfl,
    hfixed (by decide), rfl, hwhole b, rfl, hfixed (by decide), rfl, hwhole s, rfl,
    hfixed (by decide)⟩

/-- The words of the loop are these tokens. -/
theorem lex_countingWords (a b s : Int) :
    Token.lex (countingWords a b s) =
      .name "N" :: .operator .equal :: (Expr.wholeTokens 0 ++ .colon ::
        (.keyword .FOR :: .name "I" :: .operator .equal :: (Expr.wholeTokens a ++ .keyword .TO ::
          (Expr.wholeTokens b ++ .keyword .STEP :: Expr.wholeTokens s)) ++ .colon ::
        [.name "N", .operator .equal, .name "N", .operator .plus, .numeral "1", .colon,
          .keyword .NEXT, .name "I"])) := by
  have hkeyword (k : Keyword) (hk : k ≠ .DATA ∧ k ≠ .REM) (cs : List Char) :
      Token.lex ((Token.keyword k).shown.toList ++ ' ' :: cs) = .keyword k :: Token.lex cs := by
    have hplain : (Token.keyword k).Plain := hk
    rw [Token.lex_plain hplain rfl (Token.ends_blank cs), Token.lex_blank]
  have hcolon (cs : List Char) : Token.Ends (':' :: cs) := by simp [Token.Ends]
  have hcount (n : Int) (cs : List Char) (hcs : Token.Ends cs) :=
    Token.lex_assigned (x := 'N') rfl (fun _ => rfl) n hcs
  have hcounter (n : Int) (cs : List Char) (hcs : Token.Ends cs) :=
    Token.lex_assigned (x := 'I') rfl (fun _ => rfl) n hcs
  have hlast : Token.lex " N=N+1: NEXT I".toList = [.name "N", .operator .equal, .name "N",
      .operator .plus, .numeral "1", .colon, .keyword .NEXT, .name "I"] := by
    decide +kernel
  rw [countingWords, hcount 0 _ (hcolon _), Token.lex_colon, Token.lex_blank,
    hkeyword .FOR (by simp), hcounter a _ (Token.ends_blank _), Token.lex_blank,
    hkeyword .TO (by simp), Token.lex_whole b (Token.ends_blank _), Token.lex_blank,
    hkeyword .STEP (by simp), Token.lex_whole s (hcolon _), Token.lex_colon, hlast]
  simp only [List.cons_append, List.append_assoc]
  rfl

/-- The tokens are a way to write the statements of the loop. -/
theorem written_countingWords (ha : a.natAbs ≤ 2 ^ 51) (hb : b.natAbs ≤ 2 ^ 51)
    (hs : s.natAbs ≤ 2 ^ 51) :
    Joined Statement.Written .colon (counting a b s).statements
      (Token.lex (countingWords a b s)) := by
  have hname (n : Name) : (Expr.scalar n).Written [.name n] := by rw [Expr.Written]
  have htarget : (Target.scalar "N").Written [.name "N"] := by rw [Target.Written]
  have hreset := Statement.Written.assign htarget (Expr.written_whole (n := 0) (by decide))
  have hloop : (Statement.loop "I" (Expr.whole a) (Expr.whole b) (some (Expr.whole s))).Written _ :=
    .loopStep (Expr.written_whole (by omega)) (Expr.written_whole (by omega))
      (Expr.written_whole (by omega))
  have hcount : (Statement.assign (.scalar "N") (.binary .add (.scalar "N") (Expr.whole 1))).Written
      [.name "N", .operator .equal, .name "N", .operator .plus, .numeral "1"] := by
    have hone := Expr.written_whole (n := 1) (by decide)
    refine .assign htarget ?_
    rw [Expr.Written]
    exact ⟨_, _, hname "N", hone, rfl⟩
  rw [lex_countingWords]
  exact .cons hreset (.cons hloop (.cons hcount (.single (.nextCounter "I"))))

/-- All statements of the loop are such as can be written. -/
theorem wellFormed_counting (ha : a.natAbs ≤ 2 ^ 51) (hb : b.natAbs ≤ 2 ^ 51)
    (hs : s.natAbs ≤ 2 ^ 51) : ∀ t ∈ (counting a b s).statements, t.WellFormed := by
  have hplain : Name.isPlain "N" = true ∧ Name.isPlain "I" = true := by decide +kernel
  have hwhole {n : Int} (hn : n.natAbs ≤ 2 ^ 51) : (Expr.whole n).WellFormed :=
    Expr.wellFormed_whole (by omega)
  simp [counting, countRound, statements, Statement.WellFormed, Target.WellFormed,
    Expr.WellFormed, hplain, hwhole ha, hwhole hb, hwhole hs, hwhole (n := 0), hwhole (n := 1),
    isNumeric_counter.text]

end Block

namespace Machine

/-- A program that consists of the statements of a block ends if the block does with a tick to spare,
and with the block's store. -/
theorem execute_of_run_ended {b : Block} {p : Program} {m σ : Machine} {turns left : Nat}
    (hb : b.isStructured [] = true) (hlayout : p.lines.flatMap Line.statements = b.statements)
    (hnesting : b.nesting ≤ m.loops.limit) (hsteps : m.stepLimit = none)
    (h : b.run turns (b.start m) = .ended () (left + 1) σ) :
    ∃ m', m.execute p turns = .finished (.ok ()) m' ∧ SameStore m' σ := by
  have hplain : ∀ s ∈ p.lines.flatMap Line.statements, s.stripIfs = s := fun s hs =>
    Block.stripIfs_of_mem hb (hlayout ▸ hs)
  have hlength : 0 + b.statements.length = p.flatten.length := by
    rw [Nat.zero_add, ← hlayout, ← List.length_map Statement.stripIfs, ← Program.flatten_map_snd,
      List.length_map]
  have hroom : ([] : List Loop).length + b.nesting ≤ m.loops.limit := by
    rw [List.length_nil, Nat.zero_add]
    exact hnesting
  have htracks := track_run hplain b (by exact hb) hroom (Program.holds_of_layout hb hlayout)
    (following_load hlayout hsteps) turns
  rw [hlength, h] at htracks
  obtain ⟨-, m', hrun, hfollowing⟩ := htracks
  obtain ⟨m'', hturn, hstore⟩ := turn_of_following_end hfollowing
  refine ⟨m'', ?_, hstore⟩
  rw [execute, hrun, runFor, hturn]

/-- On every machine without a step limit that can hold a loop and has room for two more variables, as
a new one has, the program counts the rounds of its loop. -/
theorem execute_counting (number : LineNumber) (a b s : Int) (m : Machine)
    (hnumber : number ≤ LineNumber.greatest) (hs : s ≠ 0) (ha : a.natAbs ≤ 2 ^ 51)
    (hb : b.natAbs ≤ 2 ^ 51) (hs' : s.natAbs ≤ 2 ^ 51) (hsteps : m.stepLimit = none)
    (hstack : 1 ≤ m.loops.limit) (hroom : m.memory.scalars.size + 2 < Memory.scalarCapacity) :
    ∃ p, Program.parse (Block.countingText number a b s) = .ok p ∧
      ∃ turns m', m.execute p turns = .finished (.ok ()) m' ∧
        m'.memory.fetch "N" = .number (Float.ofInt (Block.rounds a b s)) ∧
        m'.memory.fetch "I" = .number (Float.ofInt (Block.lastCounter a b s)) := by
  have hremark : ∀ t ∈ (Block.counting a b s).statements.dropLast, t.stripIfs ≠ .remark := by
    simp [Block.counting, Block.countRound, Block.statements, Statement.stripIfs]
  have hparse := Program.parse_line hnumber (Block.isLineEnd_of_mem_countingWords a b s)
    (Block.written_countingWords ha hb hs') (Block.wellFormed_counting ha hb hs') hremark
    (Block.toList_countingText number a b s)
  have hstructured : (Block.counting a b s).isStructured [] = true := rfl
  have hlayout : [Line.mk number (Block.counting a b s).statements].flatMap Line.statements =
      (Block.counting a b s).statements := List.flatMap_singleton _ _
  obtain ⟨ticks, σ, hrun, hcounted⟩ :=
    Block.run_counting (σ := (Block.counting a b s).start m) hs ha hb hs' hroom rfl 1
  obtain ⟨m', hexecute, hstore⟩ :=
    execute_of_run_ended (p := ⟨_⟩) hstructured hlayout hstack hsteps hrun
  refine ⟨_, hparse, ticks, m', hexecute, ?_, ?_⟩
  · rw [hstore.memory, hcounted.count]
  · rw [hstore.memory, hcounted.counter]

/-- Five, one and minus three are not below minus six; minus seven would be. -/
theorem execute_counting_overshooting :
    ∃ p, Program.parse "10 N=0: FOR I=5 TO -6 STEP -4: N=N+1: NEXT I" = .ok p ∧
      ∃ turns m', (Machine.new {} 0 1).execute p turns = .finished (.ok ()) m' ∧
        m'.memory.fetch "N" = .number (Float.ofInt 3) ∧
        m'.memory.fetch "I" = .number (Float.ofInt (-3)) := by
  have hround {k : Int} (hk : 0 ≤ k) :
      k < Block.rounds 5 (-6) (-4) ↔ Block.Within (-6) (-4) (5 + k * -4) :=
    Block.lt_rounds_iff (by decide) hk
  have hrounds : Block.rounds 5 (-6) (-4) = 3 := by
    have hthird := (hround (k := 2) (by decide)).mpr (by decide)
    have hfourth := (hround (k := 3) (by decide)).not.mpr (by decide)
    omega
  have hlast : Block.lastCounter 5 (-6) (-4) = -3 := by
    rw [Block.lastCounter, hrounds]
    decide
  have hcounting := execute_counting 10 5 (-6) (-4) (Machine.new {} 0 1) (by decide) (by decide)
    (by decide) (by decide) (by decide) rfl (by decide) (by decide)
  rw [hrounds, hlast] at hcounting
  exact hcounting

end Machine

end CommodoreBasic
