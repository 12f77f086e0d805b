import CommodoreBasic.Machine
import Mathlib.Algebra.Order.Ring.Nat
import Mathlib.Data.Nat.Sqrt

/-!
# Finite floating numbers

Floating numbers are packed: a finite one is a mantissa of at most 53 digits times a power of two that
is not above `2 ^ 971`. An operation works on unpacked numbers, rounds its result and packs it again, and
the result is finite exactly if its exponent after rounding is not above that. So an operation that keeps
below the greatest finite number, rounding included, gives finite results.

A sum may be too great, but then it has the sign of both its summands. That is why a loop never stores
an infinite counter: a sum beyond all numbers is beyond the limit of the loop too.
-/

namespace CommodoreBasic.Number

open Float.Model (Format UnpackedFloat totalExponent)
open Float.Model.UnpackedFloat (Sign Accuracy ExtendedMantissa shiftToTargetExponent shiftToExponent
  roundWithAccuracy decreaseExponent unpackExponent unpackMantissa
  unpackExponent_packComponents)
open Float.Model.UnpackedFloat.ExtendedMantissa (ofMantissaAndAccuracy shiftRightOne)

/-! ## Packed numbers -/

/-- The number can be packed without becoming infinite. -/
def Fits : UnpackedFloat → Prop
  | .zero _ => True
  | .finite _ _ e _ => e ≤ 971
  | _ => False

/-- The number is one that a finite floating number unpacks to. -/
def Held : UnpackedFloat → Prop
  | .zero _ => True
  | .finite _ m e _ => m < 2 ^ 53 ∧ e ≤ 971
  | _ => False

/-- A number that is within the bounds of the format fits it. -/
theorem Held.fits {u : UnpackedFloat} (h : Held u) : Fits u := by
  cases u with
  | finite => exact h.2
  | _ => exact h

/-- The greatest exponent is that of infinity and of not-a-number. -/
theorem isFinite_unpack (b : BitVec Format.binary64.numBits) :
    (UnpackedFloat.unpack .binary64 b).isFinite = true ↔ @unpackExponent .binary64 b ≠ -1#11 := by
  unfold UnpackedFloat.unpack
  dsimp only
  by_cases h : @unpackExponent .binary64 b = -1#11
  · rw [if_pos h]
    constructor
    · intro hfinite
      split at hfinite <;> cases hfinite
    · exact fun hne => absurd h hne
  · rw [if_neg h]
    refine ⟨fun _ => h, fun _ => ?_⟩
    by_cases hzero : @unpackExponent .binary64 b = 0#11
    · rw [if_pos hzero]
      by_cases hmantissa : @unpackMantissa .binary64 b = 0#52
      · rw [dif_pos hmantissa]
        rfl
      · rw [dif_neg hmantissa]
        rfl
    · rw [if_neg hzero]
      rfl

/-- A number that fits packs to one that is finite. -/
theorem isFinite_pack {u : UnpackedFloat} (h : Fits u) : (Float.Model.pack u).isFinite = true := by
  refine (isFinite_unpack _).mpr ?_
  cases u with
  | infinity => exact h.elim
  | notANumber => exact h.elim
  | zero s => cases s <;> decide
  | finite s m e hm =>
    replace h : e ≤ 971 := h
    have hsmall : ¬ 2 ^ 11 ≤ (e + 1023 + 52).toNat + 1 := by omega
    change @unpackExponent .binary64 (UnpackedFloat.pack .binary64 _) ≠ -1#11
    delta UnpackedFloat.pack
    dsimp only
    change unpackExponent (if 2 ^ 11 ≤ (e + 1023 + 52).toNat + 1 then _ else _) ≠ _
    rw [if_neg hsmall]
    split
    · rw [unpackExponent_packComponents]
      intro heq
      have hexponent := congrArg BitVec.toNat heq
      change (e + 1023 + 52).toNat % 2048 = 2047 at hexponent
      omega
    · rw [unpackExponent_packComponents]
      decide

/-- A number whose exponent is too great is packed as an infinity of its sign. -/
theorem unpack_pack_of_lt {s : Sign} {m : Nat} {e : Int} (hm : 0 < m) (he : 971 < e) :
    (Float.Model.pack (.finite s m e hm)).unpack = .infinity s := by
  have hgreat : 2 ^ 11 ≤ (e + 1023 + 52).toNat + 1 := by omega
  have hpacked : UnpackedFloat.pack .binary64 (.finite s m e hm) =
      UnpackedFloat.packedInfinity .binary64 s := if_pos hgreat
  change UnpackedFloat.unpack .binary64 (UnpackedFloat.pack .binary64 (.finite s m e hm)) = _
  rw [hpacked]
  cases s <;> rfl

/-- A finite number unpacks to one within the bounds. -/
theorem held_unpack {x : Float} (h : x.isFinite = true) : Held x.toModel.unpack := by
  change (UnpackedFloat.unpack .binary64 x.toModel.toBits.toBitVec).isFinite = true at h
  change Held (UnpackedFloat.unpack .binary64 x.toModel.toBits.toBitVec)
  generalize x.toModel.toBits.toBitVec = b at h
  have hexponent := (isFinite_unpack b).mp h
  have hlt : (@unpackExponent .binary64 b).toNat < 2048 := (@unpackExponent .binary64 b).isLt
  have hne : (@unpackExponent .binary64 b).toNat ≠ 2047 := fun heq =>
    hexponent (BitVec.eq_of_toNat_eq heq)
  have hle : ((@unpackExponent .binary64 b).toNat : Int) - (1023 + 52) ≤ 971 := by omega
  unfold UnpackedFloat.unpack
  dsimp only
  rw [if_neg hexponent]
  by_cases hzero : @unpackExponent .binary64 b = 0#11
  · rw [if_pos hzero]
    by_cases hmantissa : @unpackMantissa .binary64 b = 0#52
    · rw [dif_pos hmantissa]
      trivial
    · rw [dif_neg hmantissa]
      constructor
      · exact Nat.lt_trans (BitVec.isLt _) (by decide)
      · rw [hzero]
        decide
  · rw [if_neg hzero]
    exact ⟨BitVec.isLt _, hle⟩

/-- A finite number unpacks to a zero, or to a mantissa and an exponent within the bounds. -/
theorem unpack_cases {x : Float} (h : x.isFinite = true) :
    (∃ s, x.toModel.unpack = .zero s) ∨
      ∃ s m e hm, x.toModel.unpack = .finite s m e hm ∧ m < 2 ^ 53 ∧ e ≤ 971 := by
  have hheld := held_unpack h
  cases hu : x.toModel.unpack with
  | infinity => rw [hu] at hheld; exact hheld.elim
  | notANumber => rw [hu] at hheld; exact hheld.elim
  | zero s => exact .inl ⟨s, rfl⟩
  | finite s m e hm =>
    rw [hu] at hheld
    exact .inr ⟨s, m, e, hm, rfl, hheld⟩

/-! ## Rounding

Rounding shifts a mantissa to the right until 53 digits are left, rounds it by what was lost, and shifts
once more if that took another digit. -/

/-- A shift to the right divides the mantissa. -/
theorem mantissa_shiftRight (em : ExtendedMantissa) (n : Nat) :
    (em >>> n).mantissa = em.mantissa / 2 ^ n := by
  change (n.repeat shiftRightOne em).mantissa = _
  induction n with
  | zero => rw [Nat.pow_zero, Nat.div_one]; rfl
  | succ n ih => rw [Nat.repeat, shiftRightOne, ih, Nat.div_div_eq_div_mul, Nat.pow_succ]

/-- Nothing is lost of a multiple of the power that is shifted out. -/
theorem shiftRight_mul_two_pow (q n : Nat) :
    ofMantissaAndAccuracy (q * 2 ^ n) .exact >>> n = ofMantissaAndAccuracy q .exact := by
  change n.repeat shiftRightOne _ = _
  induction n generalizing q with
  | zero => rw [Nat.pow_zero, Nat.mul_one]; rfl
  | succ n ih =>
    have heven : q * 2 ^ (n + 1) = (2 * q) * 2 ^ n := by
      rw [Nat.pow_succ, Nat.mul_comm (2 ^ n), ← Nat.mul_assoc, Nat.mul_comm q]
    rw [Nat.repeat, heven, ih]
    simp [shiftRightOne, ofMantissaAndAccuracy]

/-- The accuracy does not change the mantissa. -/
theorem mantissa_ofMantissaAndAccuracy (m : Nat) (a : Accuracy) :
    (ofMantissaAndAccuracy m a).mantissa = m := by
  rcases a with _ | _ | _ | _ <;> rfl

/-- Rounding adds at most one to the mantissa. -/
theorem roundedMantissa_le (em : ExtendedMantissa) : em.roundedMantissa ≤ em.mantissa + 1 := by
  rcases em with ⟨m, _ | _, _ | _⟩ <;>
    simp only [ExtendedMantissa.roundedMantissa, ExtendedMantissa.accuracy,
      Accuracy.roundToNearestEven] <;> omega

/-- Rounding does not go beyond a bound that is a whole number after the shift. -/
theorem roundedMantissa_shiftRight_le {m c n : Nat} (h : m ≤ c * 2 ^ n) :
    (ofMantissaAndAccuracy m .exact >>> n).roundedMantissa ≤ c := by
  have hmantissa : (ofMantissaAndAccuracy m .exact >>> n).mantissa = m / 2 ^ n :=
    mantissa_shiftRight _ n
  have hle := roundedMantissa_le (ofMantissaAndAccuracy m .exact >>> n)
  have hdiv : m / 2 ^ n ≤ c := Nat.div_le_of_le_mul (Nat.mul_comm c _ ▸ h)
  by_cases heq : m / 2 ^ n = c
  · have hm : m = c * 2 ^ n := Nat.le_antisymm h (heq ▸ Nat.div_mul_le_self m (2 ^ n))
    rw [hm, shiftRight_mul_two_pow]
    exact Nat.le_refl c
  · omega

/-- A number below a power of two has a smaller logarithm. -/
theorem log2_le_of_lt {m n : Nat} (h : m < 2 ^ (n + 1)) : m.log2 ≤ n := by
  by_cases hzero : m = 0
  · rw [hzero, Nat.log2_zero]
    exact Nat.zero_le n
  · exact Nat.le_of_lt_succ ((Nat.log2_lt hzero).mpr h)

/-- The exponent of a rounded number is given by its length, but not below the least one. -/
theorem targetExponent_eq (m : Nat) (e : Int) :
    Format.binary64.targetExponent (totalExponent m e) = max (m.log2 + 1 + e - 53) (-1074) := rfl

/-- A number is shifted to that exponent, or left where it is if that is greater. -/
theorem exponent_shiftToTargetExponent (m : Nat) (e : Int) (a : Accuracy) :
    (shiftToTargetExponent .binary64 m e a).2 = max e (max (m.log2 + 1 + e - 53) (-1074)) := by
  rw [shiftToTargetExponent, shiftToExponent, targetExponent_eq]
  dsimp only
  omega

/-- The first shift leaves 53 digits, and rounding may add one. -/
theorem log2_roundedMantissa_le (m : Nat) (e : Int) (a : Accuracy) :
    (shiftToTargetExponent .binary64 m e a).1.roundedMantissa.log2 ≤ 53 := by
  have hle := roundedMantissa_le (shiftToTargetExponent .binary64 m e a).1
  rw [shiftToTargetExponent, shiftToExponent] at hle ⊢
  dsimp only at hle ⊢
  rw [mantissa_shiftRight, mantissa_ofMantissaAndAccuracy, targetExponent_eq] at hle
  rw [targetExponent_eq]
  generalize hn : (max ((m.log2 : Int) + 1 + e - 53) (-1074) - e).toNat = n at hle ⊢
  have hdigits : m < 2 ^ (53 + n) :=
    Nat.lt_of_lt_of_le Nat.lt_log2_self (Nat.pow_le_pow_right (by decide) (by omega))
  have hdiv : m / 2 ^ n < 2 ^ 53 := Nat.div_lt_of_lt_mul (by rwa [← Nat.pow_add, Nat.add_comm])
  exact log2_le_of_lt (Nat.lt_of_le_of_lt (Nat.le_trans hle hdiv) (by decide))

/-- Rounding keeps the sign. What has been rounded is shifted once more, as it may have a digit too much. -/
theorem roundWithAccuracy_cases (s : Sign) {m : Nat} {e : Int} {a : Accuracy}
    {first second : ExtendedMantissa × Int} (hfirst : shiftToTargetExponent .binary64 m e a = first)
    (hsecond : shiftToTargetExponent .binary64 first.1.roundedMantissa first.2 .exact = second) :
    roundWithAccuracy .binary64 s m e a = .zero s ∨
      ∃ hpos, roundWithAccuracy .binary64 s m e a = .finite s second.1.mantissa second.2 hpos := by
  subst hfirst hsecond
  by_cases hzero : (shiftToTargetExponent .binary64
      (shiftToTargetExponent .binary64 m e a).1.roundedMantissa
      (shiftToTargetExponent .binary64 m e a).2 .exact).1.mantissa = 0
  · exact .inl (dif_pos hzero)
  · exact .inr ⟨Nat.pos_of_ne_zero hzero, dif_neg hzero⟩

/-- The exponent at the end is determined by the mantissa and the exponent after the first shift. -/
theorem fits_roundWithAccuracy {s : Sign} {m : Nat} {e : Int} {a : Accuracy}
    (he : (shiftToTargetExponent .binary64 m e a).2 ≤ 971)
    (hr : ((shiftToTargetExponent .binary64 m e a).1.roundedMantissa.log2 : Int) +
      (shiftToTargetExponent .binary64 m e a).2 ≤ 1023) :
    Fits (roundWithAccuracy .binary64 s m e a) := by
  obtain hzero | ⟨_, hfinite⟩ := roundWithAccuracy_cases s (m := m) (e := e) (a := a) rfl rfl
  · rw [hzero]
    trivial
  · rw [hfinite]
    change (shiftToTargetExponent .binary64 _ _ .exact).2 ≤ 971
    rw [exponent_shiftToTargetExponent]
    omega

/-- What is a digit below the greatest numbers fits, however it is rounded. -/
theorem fits_roundWithAccuracy_of_small {s : Sign} {m : Nat} {e : Int} {a : Accuracy} (he : e ≤ 970)
    (hm : (m.log2 : Int) + e ≤ 1022) : Fits (roundWithAccuracy .binary64 s m e a) := by
  have hexponent := exponent_shiftToTargetExponent m e a
  have hlog := log2_roundedMantissa_le m e a
  exact fits_roundWithAccuracy (by omega) (by omega)

/-- What is not above the greatest finite number fits. -/
theorem fits_roundWithAccuracy_exact {s : Sign} {m k : Nat} {e : Int} (hm : m ≤ (2 ^ 53 - 1) * 2 ^ k)
    (he : e + k ≤ 971) : Fits (roundWithAccuracy .binary64 s m e .exact) := by
  have hdigits : m.log2 ≤ 52 + k := by
    refine log2_le_of_lt (Nat.lt_of_le_of_lt hm ?_)
    rw [Nat.add_right_comm, Nat.pow_add]
    exact Nat.mul_lt_mul_of_pos_right (by decide) (Nat.two_pow_pos k)
  have hexponent := exponent_shiftToTargetExponent m e .exact
  have hlog := log2_roundedMantissa_le m e .exact
  by_cases hlast : (shiftToTargetExponent .binary64 m e .exact).2 = 971
  · -- At the greatest exponent a 54th digit would be too much: here the bound is used in full.
    have hshift : (shiftToTargetExponent .binary64 m e .exact).1 =
        ofMantissaAndAccuracy m .exact >>> k := by
      rw [shiftToTargetExponent, shiftToExponent, targetExponent_eq]
      dsimp only
      congr 1
      omega
    have hrounded := roundedMantissa_shiftRight_le hm
    rw [← hshift] at hrounded
    have hlog' := log2_le_of_lt (n := 52) (Nat.lt_of_le_of_lt hrounded (by decide))
    exact fits_roundWithAccuracy (by omega) (by omega)
  · exact fits_roundWithAccuracy (by omega) (by omega)

/-- What is not too long for its exponent fits after rounding. -/
theorem fits_round {s : Sign} {m k : Nat} {e : Int} (hm : m ≤ (2 ^ 53 - 1) * 2 ^ k)
    (he : e + k ≤ 971) : Fits (UnpackedFloat.round .binary64 s m e) := by
  rw [UnpackedFloat.round, decreaseExponent]
  generalize (e - _ : Int).toNat = n
  refine fits_roundWithAccuracy_exact (k := k + n) ?_ ?_
  · rw [Nat.shiftLeft_eq, Nat.pow_add, ← Nat.mul_assoc]
    exact Nat.mul_le_mul_right _ hm
  · omega

/-- The same of a number with a sign of its own. -/
theorem fits_normalize {n e : Int} {k : Nat} {s : Sign} (hn : n.natAbs ≤ (2 ^ 53 - 1) * 2 ^ k)
    (he : e + k ≤ 971) : Fits (UnpackedFloat.normalize .binary64 n e s) := by
  rw [UnpackedFloat.normalize]
  split
  · exact fits_round (by omega) he
  · trivial
  · exact fits_round (by omega) he

/-! ## Operations with finite results -/

variable {x y : Float}

/-- A whole number of 64 bits is finite. -/
theorem isFinite_toFloat (n : UInt64) : n.toFloat.isFinite = true := by
  refine isFinite_pack (fits_normalize (k := 12) ?_ (by decide))
  have hn : n.toNat < 2 ^ 64 := n.toNat_lt
  exact Nat.le_trans (Nat.le_of_lt hn) (by decide)

/-- The other sign keeps a number finite. -/
theorem isFinite_neg (h : x.isFinite = true) : (-x).isFinite = true := by
  have hx := (held_unpack h).fits
  refine isFinite_pack (u := x.toModel.unpack.neg) ?_
  cases hu : x.toModel.unpack <;> rw [hu] at hx <;> exact hx

/-- So does the absolute value. -/
theorem isFinite_abs (h : x.isFinite = true) : x.abs.isFinite = true := by
  have hx := (held_unpack h).fits
  refine isFinite_pack (u := x.toModel.unpack.abs) ?_
  cases hu : x.toModel.unpack <;> rw [hu] at hx <;> exact hx

/-- These are the digits of one. -/
theorem unpack_one : (Float.ofBits 0x3FF0000000000000).toModel.unpack =
    .finite .positive (2 ^ 52) (-52) (by decide) := rfl

/-- The factor is one. -/
theorem isFinite_mul_one (h : x.isFinite = true) :
    (x * Float.ofBits 0x3FF0000000000000).isFinite = true := by
  refine isFinite_pack (u := UnpackedFloat.mul .binary64 x.toModel.unpack _) ?_
  rw [unpack_one]
  obtain ⟨s, hu⟩ | ⟨s, m, e, hm, hu, hdigits, he⟩ := unpack_cases h <;> rw [hu]
  · trivial
  · refine fits_roundWithAccuracy_exact (k := 52) ?_ (by omega)
    exact Nat.mul_le_mul_right _ (Nat.le_sub_one_of_lt hdigits)

/-- A whole number is made as a product with one. -/
theorem ofNat_eq_mul {n : Nat} (h : n < 2 ^ 53) :
    Float.ofNat n = n.toUInt64.toFloat * Float.ofBits 0x3FF0000000000000 := by
  rw [Float.ofNat]
  exact dif_pos ⟨h, by decide⟩

/-- A whole number of at most 53 bits is finite. -/
theorem isFinite_ofNat {n : Nat} (h : n < 2 ^ 53) : (Float.ofNat n).isFinite = true := by
  rw [ofNat_eq_mul h]
  exact isFinite_mul_one (isFinite_toFloat _)

/-- So is one with a sign. -/
theorem isFinite_ofInt {n : Int} (h : n.natAbs < 2 ^ 53) : (Float.ofInt n).isFinite = true := by
  cases n with
  | ofNat n => exact isFinite_ofNat h
  | negSucc n => exact isFinite_neg (isFinite_ofNat h)

/-- The divisor is `2 ^ 53`. -/
theorem isFinite_div_two_pow (h : x.isFinite = true) : (x / 9007199254740992).isFinite = true := by
  have hpower : (9007199254740992 : Float).toModel.unpack =
      .finite .positive (2 ^ 52) 1 (by decide) := by rfl
  refine isFinite_pack (u := UnpackedFloat.div .binary64 x.toModel.unpack _) ?_
  rw [hpower]
  obtain ⟨s, hu⟩ | ⟨s, m, e, hm, hu, hdigits, he⟩ := unpack_cases h <;> rw [hu]
  · trivial
  · generalize hcore : UnpackedFloat.divCore .binary64 m e (2 ^ 52) 1 = core
    have hdiv : UnpackedFloat.div .binary64 (.finite s m e hm)
        (.finite .positive (2 ^ 52) 1 (by decide)) =
        roundWithAccuracy .binary64 (s / .positive) core.1 core.2.1 core.2.2 := by
      rw [← hcore]
      rfl
    rw [hdiv]
    rw [UnpackedFloat.divCore] at hcore
    generalize Format.binary64.targetExponent _ = t at hcore
    subst hcore
    dsimp only
    generalize hn : (e - 1 - min (e - 1) t).toNat = n
    have hquotient : (m <<< n / 2 ^ 52).log2 ≤ n := by
      refine log2_le_of_lt (Nat.div_lt_of_lt_mul ?_)
      rw [Nat.shiftLeft_eq, ← Nat.pow_add, Nat.add_comm _ 1, ← Nat.add_assoc, Nat.pow_add]
      exact Nat.mul_lt_mul_of_pos_right hdigits (Nat.two_pow_pos n)
    exact fits_roundWithAccuracy_of_small (by omega) (by omega)

/-- The order of floating numbers is that of their unpacked parts. -/
theorem lt_iff : x < y ↔ UnpackedFloat.lt x.toModel.unpack y.toModel.unpack = true :=
  decide_eq_true_iff

/-- The same of at most. -/
theorem le_iff : x ≤ y ↔ UnpackedFloat.le x.toModel.unpack y.toModel.unpack = true :=
  decide_eq_true_iff

/-- Equality of floating numbers is that of their unpacked parts. -/
theorem beq_iff : (x == y) = true ↔ x.toModel.unpack.compare y.toModel.unpack = some .eq := by
  change (x.toModel.unpack.compare y.toModel.unpack == some .eq) = true ↔ _
  rw [beq_iff_eq]

/-- Zero unpacks to zero. -/
theorem unpack_zero : (0 : Float).toModel.unpack = .zero .positive := rfl

/-- A finite number is positive or at most zero. -/
theorem zero_lt_of_not_le (h : x.isFinite = true) (hx : ¬ x ≤ 0) : 0 < x := by
  rw [le_iff, unpack_zero] at hx
  rw [lt_iff, unpack_zero]
  obtain ⟨s, hu⟩ | ⟨s, m, e, hm, hu, -⟩ := unpack_cases h <;> rw [hu] at hx ⊢
  · exact absurd rfl hx
  · cases s with
    | negative => exact absurd rfl hx
    | positive => rfl

/-- The root of a finite number that is not negative is finite. -/
theorem isFinite_sqrt (h : x.isFinite = true) (hx : ¬ x < 0) : x.sqrt.isFinite = true := by
  rw [lt_iff, unpack_zero] at hx
  refine isFinite_pack (u := UnpackedFloat.sqrt .binary64 x.toModel.unpack) ?_
  obtain ⟨s, hu⟩ | ⟨s, m, e, hm, hu, hdigits, he⟩ := unpack_cases h <;> rw [hu] at hx ⊢
  · trivial
  · cases s with
    | negative => exact absurd rfl hx
    | positive =>
      generalize hcore : UnpackedFloat.sqrtCore .binary64 m e = core
      have hsqrt : UnpackedFloat.sqrt .binary64 (.finite .positive m e hm) =
          roundWithAccuracy .binary64 .positive core.1 core.2.1 core.2.2 := by
        rw [← hcore]
        rfl
      rw [hsqrt]
      rw [UnpackedFloat.sqrtCore] at hcore
      generalize Format.binary64.targetExponent _ = t at hcore
      subst hcore
      dsimp only
      generalize hn : (e - 2 * min (e.ediv 2) t).toNat = n
      have hroot : (m <<< n).sqrt.log2 ≤ (52 + n) / 2 := by
        refine log2_le_of_lt (Nat.sqrt_lt'.mpr ?_)
        rw [Nat.shiftLeft_eq, ← Nat.pow_mul]
        calc m * 2 ^ n < 2 ^ 53 * 2 ^ n := Nat.mul_lt_mul_of_pos_right hdigits (Nat.two_pow_pos n)
          _ = 2 ^ (53 + n) := (Nat.pow_add 2 53 n).symm
          _ ≤ 2 ^ (((52 + n) / 2 + 1) * 2) := Nat.pow_le_pow_right (by decide) (by omega)
      have hhalf : e.ediv 2 = e / 2 := rfl
      exact fits_roundWithAccuracy_of_small (by omega) (by omega)

/-- A number that is not whole has a denominator, and then its numerator is the mantissa. -/
theorem fraction?_cases (h : x.isFinite = true) {n : Int} {d : Nat}
    (hfraction : fraction? x = some (n, d)) : n % (d : Int) = 0 ∨ n.natAbs < 2 ^ 53 := by
  rw [fraction?] at hfraction
  obtain ⟨s, hu⟩ | ⟨s, m, e, hm, hu, hdigits, -⟩ := unpack_cases h <;> rw [hu] at hfraction
  · cases hfraction
    exact .inl rfl
  · by_cases he : 0 ≤ e
    · have hone : Nat.pow 2 (-e).toNat = 1 := by rw [Int.toNat_of_nonpos (by omega)]
      refine .inl ?_
      cases s <;> cases hfraction <;> rw [hone] <;> exact Int.emod_one _
    · have hone : Nat.pow 2 e.toNat = 1 := by rw [Int.toNat_of_nonpos (by omega)]
      refine .inr ?_
      cases s <;> cases hfraction <;> rw [hone] <;> omega

/-- The greatest whole number below a finite one is finite. -/
theorem isFinite_floor (h : x.isFinite = true) : (floor x).isFinite = true := by
  rw [floor, floor?, isWhole]
  cases hfraction : fraction? x with
  | none => exact h
  | some p =>
    dsimp only [Option.map_some]
    by_cases hwhole : p.1 % (p.2 : Int) = 0
    · rw [if_pos (beq_iff_eq.mpr hwhole)]
      exact h
    · rw [if_neg fun heq => hwhole (beq_iff_eq.mp heq)]
      have hsmall := (fraction?_cases h hfraction).resolve_left hwhole
      exact isFinite_ofInt (Nat.lt_of_le_of_lt (Int.natAbs_ediv_le_natAbs p.1 p.2) hsmall)

/-! ## Sums -/

/-- The number is not zero and has the sign `s`. -/
def Signed (s : Sign) : UnpackedFloat → Prop
  | .finite s' _ _ _ => s' = s
  | _ => False

/-- A rounded number fits, or it has become infinite with its own sign. -/
theorem fits_or_signed_roundWithAccuracy (s : Sign) (m : Nat) (e : Int) (a : Accuracy) :
    Fits (roundWithAccuracy .binary64 s m e a) ∨ Signed s (roundWithAccuracy .binary64 s m e a) := by
  obtain hzero | ⟨_, hfinite⟩ := roundWithAccuracy_cases s (m := m) (e := e) (a := a) rfl rfl
  · rw [hzero]
    exact .inl trivial
  · rw [hfinite]
    exact .inr rfl

/-- A number with a sign is rounded as its absolute value is. -/
theorem normalize_apply {a : Nat} (ha : 0 < a) (s t : Sign) (e : Int) :
    UnpackedFloat.normalize .binary64 (s.apply a) e t = UnpackedFloat.round .binary64 s a e := by
  rw [UnpackedFloat.normalize]
  cases s with
  | negative =>
    have hneg : Sign.apply .negative a = -(a : Int) := rfl
    rw [hneg, Int.compare_eq_lt.mpr (by omega)]
    dsimp only
    rw [Int.neg_neg, Int.toNat_natCast]
  | positive =>
    have hpos : Sign.apply .positive a = (a : Int) := rfl
    rw [hpos, Int.compare_eq_gt.mpr (by omega)]
    dsimp only
    rw [Int.toNat_natCast]

/-- A mantissa that is shifted keeps its bound. -/
theorem shiftLeft_le {m n k : Nat} (hm : m < 2 ^ 53) (hn : n ≤ k) :
    m <<< n ≤ (2 ^ 53 - 1) * 2 ^ k := by
  rw [Nat.shiftLeft_eq]
  exact Nat.mul_le_mul (Nat.le_sub_one_of_lt hm) (Nat.pow_le_pow_right (by decide) hn)

/-- A sum of two numbers that are not zero. If their signs differ, it is not above the greater of
them. -/
theorem fits_or_signed_add {s₁ s₂ : Sign} {m₁ m₂ : Nat} {e₁ e₂ : Int} {hm₁ : 0 < m₁} {hm₂ : 0 < m₂}
    (h₁ : Held (.finite s₁ m₁ e₁ hm₁)) (h₂ : Held (.finite s₂ m₂ e₂ hm₂)) :
    Fits (UnpackedFloat.add .binary64 (.finite s₁ m₁ e₁ hm₁) (.finite s₂ m₂ e₂ hm₂)) ∨
      Signed s₂ (UnpackedFloat.add .binary64 (.finite s₁ m₁ e₁ hm₁) (.finite s₂ m₂ e₂ hm₂)) := by
  obtain ⟨hdigits₁, he₁⟩ := h₁
  obtain ⟨hdigits₂, he₂⟩ := h₂
  have hadd : UnpackedFloat.add .binary64 (.finite s₁ m₁ e₁ hm₁) (.finite s₂ m₂ e₂ hm₂) =
      UnpackedFloat.normalize .binary64 (s₁.apply (m₁ <<< (e₁ - min e₁ e₂).toNat : Nat) +
        s₂.apply (m₂ <<< (e₂ - min e₁ e₂).toNat : Nat)) (min e₁ e₂) .positive := rfl
  rw [hadd]
  have hle₁ : m₁ <<< (e₁ - min e₁ e₂).toNat ≤ (2 ^ 53 - 1) * 2 ^ (971 - min e₁ e₂).toNat :=
    shiftLeft_le hdigits₁ (by omega)
  have hle₂ : m₂ <<< (e₂ - min e₁ e₂).toNat ≤ (2 ^ 53 - 1) * 2 ^ (971 - min e₁ e₂).toNat :=
    shiftLeft_le hdigits₂ (by omega)
  have hpos : 0 < m₁ <<< (e₁ - min e₁ e₂).toNat := by
    rw [Nat.shiftLeft_eq]
    exact Nat.mul_pos hm₁ (Nat.two_pow_pos _)
  generalize m₁ <<< (e₁ - min e₁ e₂).toNat = a₁ at *
  generalize m₂ <<< (e₂ - min e₁ e₂).toNat = a₂ at *
  have hsigns : (s₁.apply a₁ + s₂.apply a₂).natAbs ≤ (2 ^ 53 - 1) * 2 ^ (971 - min e₁ e₂).toNat ∨
      s₁ = s₂ := by
    cases s₁ <;> cases s₂ <;> simp only [Sign.apply, or_true, reduceCtorEq, or_false] <;> omega
  rcases hsigns with hsmall | rfl
  · exact .inl (fits_normalize hsmall (by omega))
  · have hsum : s₁.apply a₁ + s₁.apply a₂ = s₁.apply (a₁ + a₂ : Nat) := by
      cases s₁ <;> simp only [Sign.apply] <;> omega
    rw [hsum, normalize_apply (by omega)]
    exact fits_or_signed_roundWithAccuracy s₁ _ _ .exact

/-- A sum of finite numbers is finite or an infinity with the sign of the second. -/
theorem isFinite_add_or (hx : x.isFinite = true) (hy : y.isFinite = true) :
    (x + y).isFinite = true ∨
      ∃ s, Signed s y.toModel.unpack ∧ (x + y).toModel.unpack = .infinity s := by
  generalize hsum : UnpackedFloat.add .binary64 x.toModel.unpack y.toModel.unpack = sum
  have hpack : (x + y).toModel = Float.Model.pack sum := hsum ▸ rfl
  have hcases : Fits sum ∨ ∃ s, Signed s y.toModel.unpack ∧ Signed s sum := by
    have hheldx := held_unpack hx
    have hheldy := held_unpack hy
    obtain ⟨s₁, hu⟩ | ⟨s₁, m₁, e₁, hm₁, hu, -⟩ := unpack_cases hx <;>
      obtain ⟨s₂, hv⟩ | ⟨s₂, m₂, e₂, hm₂, hv, -⟩ := unpack_cases hy <;>
      rw [hu] at hsum hheldx <;> rw [hv] at hsum hheldy ⊢ <;> subst hsum
    · refine .inl ?_
      cases s₁ <;> cases s₂ <;> trivial
    · exact .inl hheldy.fits
    · exact .inl hheldx.fits
    · exact (fits_or_signed_add hheldx hheldy).imp_right fun h => ⟨s₂, rfl, h⟩
  change (x + y).toModel.isFinite = true ∨ _
  rw [hpack]
  rcases hcases with hfits | ⟨s, hsign, hsigned⟩
  · exact .inl (isFinite_pack hfits)
  · cases sum with
    | finite s' m e hm =>
      cases hsigned
      by_cases he : e ≤ 971
      · exact .inl (isFinite_pack he)
      · exact .inr ⟨s, hsign, unpack_pack_of_lt hm (Int.not_le.mp he)⟩
    | _ => exact hsigned.elim

/-- Infinity is not below a finite number. -/
theorem not_le_of_unpack_positive (hx : x.toModel.unpack = .infinity .positive)
    (hy : y.isFinite = true) : ¬ x ≤ y := by
  rw [le_iff, hx]
  obtain ⟨s, hu⟩ | ⟨s, m, e, hm, hu, -⟩ := unpack_cases hy <;> rw [hu] <;> exact Bool.false_ne_true

/-- A finite number is not below minus infinity. -/
theorem not_le_of_unpack_negative (hx : x.isFinite = true)
    (hy : y.toModel.unpack = .infinity .negative) : ¬ x ≤ y := by
  rw [le_iff, hy]
  obtain ⟨s, hu⟩ | ⟨s, m, e, hm, hu, -⟩ := unpack_cases hx <;> rw [hu] <;> exact Bool.false_ne_true

/-- The sign of a number that is not zero says whether it is positive. -/
theorem Signed.zero_lt_iff {s : Sign} (h : Signed s x.toModel.unpack) : 0 < x ↔ s = .positive := by
  rw [lt_iff, unpack_zero]
  cases hu : x.toModel.unpack with
  | finite s' m e hm =>
    rw [hu] at h
    cases h
    cases s with
    | negative => exact iff_of_false Bool.false_ne_true nofun
    | positive => exact iff_of_true rfl rfl
  | _ => rw [hu] at h; exact h.elim

end CommodoreBasic.Number

namespace CommodoreBasic

open CommodoreBasic.Number

/-- A loop that goes on has a finite counter, since the counter has not passed the limit. -/
theorem Loop.isFinite_of_continues {l : Loop} {x : Float} (hlimit : l.limit.isFinite = true)
    (hstep : l.step.isFinite = true) (hx : x.isFinite = true)
    (h : l.continues (x + l.step) = true) : (x + l.step).isFinite = true := by
  rcases isFinite_add_or hx hstep with hfinite | ⟨s, hsign, hsum⟩
  · exact hfinite
  · exfalso
    rw [Loop.continues] at h
    cases s with
    | negative =>
      rw [if_neg fun hpos => nomatch hsign.zero_lt_iff.mp hpos] at h
      exact not_le_of_unpack_negative hlimit hsum (of_decide_eq_true h)
    | positive =>
      rw [if_pos (hsign.zero_lt_iff.mpr rfl)] at h
      exact not_le_of_unpack_positive hsum hlimit (of_decide_eq_true h)

/-- The numbers that are drawn are finite. -/
theorem Random.isFinite_draw (g : Random) : g.draw.last.isFinite = true :=
  isFinite_div_two_pow (isFinite_toFloat _)

/-- A generator with a finite number has one after every roll. -/
theorem Random.isFinite_roll {g : Random} (h : g.last.isFinite = true) (x : Float) :
    (g.roll x).last.isFinite = true := by
  rw [Random.roll]
  split
  · exact Random.isFinite_draw _
  · split
    · exact h
    · exact Random.isFinite_draw g

end CommodoreBasic
