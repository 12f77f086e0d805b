import CommodoreBasic.Proofs.CanonicalFloats

/-!
# Whole floating numbers

A whole number below `2 ^ 53` has a floating number that is exactly it. Its mantissa is the number
itself, shifted to the left until it has 53 digits. Rounding leaves these digits alone in whatever form
they come, so sums that stay below the bound are exact, and the order of the floating numbers is that
of the whole numbers.
-/

namespace CommodoreBasic.Number

open Float.Model (Format UnpackedFloat)
open Float.Model.UnpackedFloat (Sign roundWithAccuracy decreaseExponent)

variable {s : Sign} {n : Nat}

/-! ## Rounding whole numbers -/

/-- The number shifted to the left until it has 53 digits. -/
def aligned (n : Nat) : Nat := n * 2 ^ (52 - n.log2)

/-- What is aligned stays positive. -/
theorem aligned_pos (hn : 0 < n) : 0 < aligned n := Nat.mul_pos hn (Nat.two_pow_pos _)

/-- It has 53 bits. -/
theorem log2_aligned (hn : 0 < n) (hbound : n < 2 ^ 53) : (aligned n).log2 = 52 := by
  have hdigits : n.log2 ≤ 52 := log2_le_of_lt hbound
  rw [aligned, log2_mul_two_pow hn, Nat.add_sub_of_le hdigits]

/-- So it is the mantissa of a float. -/
theorem canonical_aligned (hn : 0 < n) (hbound : n < 2 ^ 53) : Canonical (aligned n) (n.log2 - 52) :=
  canonical_of_log2 (log2_aligned hn hbound) (by omega)

/-- A whole number is not rounded, whatever zeros stand behind its binary point. -/
theorem round_mul_two_pow (hn : 0 < n) (hbound : n < 2 ^ 53) (k : Nat) :
    UnpackedFloat.round .binary64 s (n * 2 ^ k) (-k) =
      .finite s (aligned n) (n.log2 - 52) (aligned_pos hn) := by
  have hdigits : n.log2 ≤ 52 := log2_le_of_lt hbound
  rw [UnpackedFloat.round, targetExponent_eq, log2_mul_two_pow hn, decreaseExponent]
  generalize hshift :
    (-(k : Int) - max (((n.log2 + k : Nat) : Int) + 1 + -k - 53) (-1074)).toNat = shift
  -- the zeros that are left over when there are 53 digits
  obtain ⟨zeros, hzeros⟩ : ∃ zeros, k + shift = 52 - n.log2 + zeros :=
    ⟨k + shift - (52 - n.log2), by omega⟩
  have hmantissa : (n * 2 ^ k) <<< shift = aligned n * 2 ^ zeros := by
    rw [Nat.shiftLeft_eq, Nat.mul_assoc, ← Nat.pow_add, hzeros, Nat.pow_add, ← Nat.mul_assoc,
      aligned]
  have hexponent : -(k : Int) - shift + zeros = n.log2 - 52 := by omega
  dsimp only
  rw [hmantissa]
  exact (canonical_aligned hn hbound).roundWithAccuracy (aligned_pos hn) hexponent

/-! ## The floating number of a whole number -/

/-- The unpacked form of a whole number. -/
def whole (n : Int) : UnpackedFloat := UnpackedFloat.normalize .binary64 n 0 .positive

/-- Zero has no mantissa. -/
theorem whole_zero : whole 0 = .zero .positive := rfl

/-- Every other number has an aligned one. -/
theorem whole_apply (hn : 0 < n) (hbound : n < 2 ^ 53) :
    whole (s.apply n) = .finite s (aligned n) (n.log2 - 52) (aligned_pos hn) := by
  have hround := round_mul_two_pow (s := s) hn hbound 0
  rw [Nat.pow_zero, Nat.mul_one] at hround
  rw [whole, normalize_apply hn]
  exact hround

/-- A whole number is zero, or it has a sign and its digits are aligned. -/
theorem whole_cases {n : Int} (h : n.natAbs < 2 ^ 53) :
    n = 0 ∨ ∃ (s : Sign) (k : Nat) (hk : 0 < k), k < 2 ^ 53 ∧ n = s.apply k ∧
      whole n = .finite s (aligned k) (k.log2 - 52) (aligned_pos hk) := by
  rcases Int.lt_trichotomy n 0 with hneg | hzero | hpos
  · have hn : n = Sign.apply .negative n.natAbs := by change n = -(n.natAbs : Int); omega
    refine .inr ⟨.negative, n.natAbs, by omega, h, hn, ?_⟩
    have hwhole := whole_apply (s := .negative) (n := n.natAbs) (by omega) h
    rwa [← hn] at hwhole
  · exact .inl hzero
  · have hn : n = Sign.apply .positive n.natAbs := by change n = (n.natAbs : Int); omega
    refine .inr ⟨.positive, n.natAbs, by omega, h, hn, ?_⟩
    have hwhole := whole_apply (s := .positive) (n := n.natAbs) (by omega) h
    rwa [← hn] at hwhole

/-- A sign may be given before or after multiplying. -/
theorem apply_mul (s : Sign) (a b : Nat) : s.apply a * (b : Int) = s.apply (a * b : Nat) := by
  rw [Int.natCast_mul]
  cases s with
  | negative => exact Int.neg_mul _ _
  | positive => rfl

/-- Powers of two that cancel make no difference. -/
theorem normalize_mul_two_pow {n : Int} (h : n.natAbs < 2 ^ 53) (k : Nat) :
    UnpackedFloat.normalize .binary64 (n * (2 ^ k : Nat)) (-k) .positive = whole n := by
  obtain rfl | ⟨s, a, ha, hbound, rfl, hwhole⟩ := whole_cases h
  · rw [Int.zero_mul]
    rfl
  · rw [apply_mul, normalize_apply (Nat.mul_pos ha (Nat.two_pow_pos k)),
      round_mul_two_pow ha hbound, hwhole]

/-- Whole numbers are kept by packing. -/
theorem unpack_pack_whole {n : Int} (h : n.natAbs < 2 ^ 53) :
    (Float.Model.pack (whole n)).unpack = whole n := by
  obtain rfl | ⟨s, a, ha, hbound, rfl, hwhole⟩ := whole_cases h
  · rfl
  · have hdigits : a.log2 ≤ 52 := log2_le_of_lt hbound
    rw [hwhole]
    exact (canonical_aligned ha hbound).unpack_pack _ (by omega)

/-- One times a whole number is the number. -/
theorem mul_whole_one {n : Int} (h : n.natAbs < 2 ^ 53) :
    UnpackedFloat.mul .binary64 (whole n) (.finite .positive (2 ^ 52) (-52) (by decide)) =
      whole n := by
  obtain rfl | ⟨s, a, ha, hbound, rfl, hwhole⟩ := whole_cases h
  · rfl
  · have hsign : s * .positive = s := by cases s <;> rfl
    rw [hwhole]
    change roundWithAccuracy .binary64 (s * .positive) (aligned a * 2 ^ 52) (a.log2 - 52 + -52) .exact = _
    rw [hsign]
    exact (canonical_aligned ha hbound).roundWithAccuracy (aligned_pos ha) (by omega)

/-- A natural number becomes the whole number it is. -/
theorem unpack_toFloat (h : n < 2 ^ 53) : n.toUInt64.toFloat.toModel.unpack = whole n := by
  have htoNat : n.toUInt64.toNat = n := Nat.mod_eq_of_lt (Nat.lt_trans h (by decide))
  change (Float.Model.pack (whole n.toUInt64.toNat)).unpack = _
  rw [htoNat, unpack_pack_whole (n := n) h]

/-- So does a literal. -/
theorem toModel_ofNat (h : n < 2 ^ 53) : (Float.ofNat n).toModel = Float.Model.pack (whole n) := by
  rw [ofNat_eq_mul h]
  change Float.Model.pack (UnpackedFloat.mul .binary64 n.toUInt64.toFloat.toModel.unpack _) = _
  rw [unpack_toFloat h, unpack_one, mul_whole_one (n := n) h]

/-- A positive whole number is negated by its sign. -/
theorem neg_whole_natCast (hn : 0 < n) (hbound : n < 2 ^ 53) : (whole n).neg = whole (-n) := by
  have hpos := whole_apply (s := .positive) hn hbound
  have hneg := whole_apply (s := .negative) hn hbound
  change whole (n : Int) = _ at hpos
  change whole (-(n : Int)) = _ at hneg
  rw [hpos, hneg]
  rfl

/-- The floating number of a whole number is exactly it. -/
theorem toModel_ofInt {n : Int} (h : n.natAbs < 2 ^ 53) :
    (Float.ofInt n).toModel = Float.Model.pack (whole n) := by
  cases n with
  | ofNat n => exact toModel_ofNat h
  | negSucc n =>
    have hn : n + 1 < 2 ^ 53 := h
    change Float.Model.pack (Float.ofNat (n + 1)).toModel.unpack.neg = _
    rw [toModel_ofNat hn, unpack_pack_whole (n := (n + 1 : Nat)) hn,
      neg_whole_natCast (Nat.succ_pos n) hn]
    rfl

/-- An integer becomes the whole number it is. -/
theorem unpack_ofInt {n : Int} (h : n.natAbs < 2 ^ 53) :
    (Float.ofInt n).toModel.unpack = whole n := by
  rw [toModel_ofInt h, unpack_pack_whole h]

/-! ## Sums -/

/-- Where the exponent is that of another number, the digits in front of the point are the number. -/
theorem aligned_shiftLeft {k : Nat} (hn : n.log2 ≤ 52) (hk : 52 ≤ n.log2 + k) :
    aligned n <<< ((n.log2 : Int) - 52 - -k).toNat = n * 2 ^ k := by
  have hamount : 52 - n.log2 + ((n.log2 : Int) - 52 - -k).toNat = k := by omega
  rw [aligned, Nat.shiftLeft_eq, Nat.mul_assoc, ← Nat.pow_add, hamount]

/-- Sums of whole numbers are exact. -/
theorem add_whole {x y : Int} (hx : x.natAbs < 2 ^ 53) (hy : y.natAbs < 2 ^ 53)
    (hsum : (x + y).natAbs < 2 ^ 53) :
    UnpackedFloat.add .binary64 (whole x) (whole y) = whole (x + y) := by
  obtain rfl | ⟨s, a, ha, hbound, rfl, hwhole⟩ := whole_cases hx <;>
    obtain rfl | ⟨t, b, hb, hbound', rfl, hwhole'⟩ := whole_cases hy
  · rfl
  · rw [Int.zero_add, hwhole']
    rfl
  · rw [Int.add_zero, hwhole]
    rfl
  · have hdigits : a.log2 ≤ 52 := log2_le_of_lt hbound
    have hdigits' : b.log2 ≤ 52 := log2_le_of_lt hbound'
    obtain ⟨k, hk⟩ : ∃ k : Nat, min ((a.log2 : Int) - 52) ((b.log2 : Int) - 52) = -k :=
      ⟨52 - min a.log2 b.log2, by omega⟩
    rw [hwhole, hwhole']
    change UnpackedFloat.normalize .binary64
      (s.apply (aligned a <<< ((a.log2 : Int) - 52 - min _ _).toNat : Nat) +
        t.apply (aligned b <<< ((b.log2 : Int) - 52 - min _ _).toNat : Nat)) (min _ _) .positive = _
    rw [hk, aligned_shiftLeft hdigits (by omega), aligned_shiftLeft hdigits' (by omega), ← apply_mul,
      ← apply_mul, ← Int.add_mul, normalize_mul_two_pow hsum]

/-- Sums of whole numbers are exact. -/
theorem ofInt_add {x y : Int} (hx : x.natAbs < 2 ^ 53) (hy : y.natAbs < 2 ^ 53)
    (hsum : (x + y).natAbs < 2 ^ 53) : Float.ofInt x + Float.ofInt y = Float.ofInt (x + y) := by
  have hmodel : (Float.ofInt x + Float.ofInt y).toModel = (Float.ofInt (x + y)).toModel := by
    change Float.Model.pack (UnpackedFloat.add .binary64 (Float.ofInt x).toModel.unpack
      (Float.ofInt y).toModel.unpack) = _
    rw [unpack_ofInt hx, unpack_ofInt hy, add_whole hx hy hsum, toModel_ofInt hsum]
  exact congrArg Float.ofModel hmodel

/-! ## The order -/

/-- The greater of two whole numbers has the greater exponent or, with the same, the greater
mantissa. -/
theorem compare_aligned {a b : Nat} (ha : 0 < a) (hb : 0 < b) :
    (compare ((a.log2 : Int) - 52) (b.log2 - 52)).then (compare (aligned a) (aligned b)) =
      compare a b := by
  have hless {a b : Nat} (hb : 0 < b) (hlog : a.log2 < b.log2) : a < b :=
    calc a < 2 ^ (a.log2 + 1) := Nat.lt_log2_self
      _ ≤ 2 ^ b.log2 := Nat.pow_le_pow_right (by decide) hlog
      _ ≤ b := Nat.log2_self_le (Nat.ne_of_gt hb)
  rcases Nat.lt_trichotomy a.log2 b.log2 with hlog | hlog | hlog
  · rw [Int.compare_eq_lt.mpr (by omega), Nat.compare_eq_lt.mpr (hless hb hlog)]
    rfl
  · have hpower : 0 < 2 ^ (52 - b.log2) := Nat.two_pow_pos _
    rw [aligned, aligned, hlog, Int.compare_eq_eq.mpr rfl]
    rcases Nat.lt_trichotomy a b with hlt | rfl | hgt
    · rw [Nat.compare_eq_lt.mpr hlt, Nat.compare_eq_lt.mpr (Nat.mul_lt_mul_of_pos_right hlt hpower)]
      rfl
    · rw [Nat.compare_eq_eq.mpr rfl, Nat.compare_eq_eq.mpr rfl]
      rfl
    · rw [Nat.compare_eq_gt.mpr hgt, Nat.compare_eq_gt.mpr (Nat.mul_lt_mul_of_pos_right hgt hpower)]
      rfl
  · rw [Int.compare_eq_gt.mpr (by omega), Nat.compare_eq_gt.mpr (hless ha hlog)]
    rfl

/-- Whole numbers are compared as integers are. -/
theorem compare_whole {x y : Int} (hx : x.natAbs < 2 ^ 53) (hy : y.natAbs < 2 ^ 53) :
    (whole x).compare (whole y) = some (compare x y) := by
  obtain rfl | ⟨s, a, ha, -, rfl, hwhole⟩ := whole_cases hx <;>
    obtain rfl | ⟨t, b, hb, -, rfl, hwhole'⟩ := whole_cases hy
  · rfl
  · rw [hwhole', whole_zero]
    cases t with
    | negative => exact congrArg some (Int.compare_eq_gt.mpr (by change -(b : Int) < 0; omega)).symm
    | positive => exact congrArg some (Int.compare_eq_lt.mpr (by change (0 : Int) < b; omega)).symm
  · rw [hwhole, whole_zero]
    cases s with
    | negative => exact congrArg some (Int.compare_eq_lt.mpr (by change -(a : Int) < 0; omega)).symm
    | positive => exact congrArg some (Int.compare_eq_gt.mpr (by change (0 : Int) < a; omega)).symm
  · have haligned := compare_aligned ha hb
    rw [hwhole, hwhole']
    cases s <;> cases t
    · change some (Ordering.swap _) = some (compare (-(a : Int)) (-(b : Int)))
      rw [haligned, Nat.compare_swap, Nat.compare_eq_ite_lt, Int.compare_eq_ite_lt]
      simp only [Int.neg_lt_neg_iff, Int.ofNat_lt]
    · exact congrArg some (Int.compare_eq_lt.mpr (by change -(a : Int) < b; omega)).symm
    · exact congrArg some (Int.compare_eq_gt.mpr (by change -(b : Int) < a; omega)).symm
    · change some (Ordering.then _ _) = some (compare (a : Int) b)
      rw [haligned, Nat.compare_eq_ite_lt, Int.compare_eq_ite_lt]
      simp only [Int.ofNat_lt]

section Order

variable {x y : Int} (hx : x.natAbs < 2 ^ 53) (hy : y.natAbs < 2 ^ 53)
include hx hy

/-- So one is less than another exactly if the integer is. -/
theorem ofInt_lt : Float.ofInt x < Float.ofInt y ↔ x < y := by
  rw [lt_iff, unpack_ofInt hx, unpack_ofInt hy]
  change ((whole x).compare (whole y) == some .lt) = true ↔ _
  rw [compare_whole hx hy, beq_iff_eq, Option.some_inj, Int.compare_eq_lt]

/-- So it is with being at most another. -/
theorem ofInt_le : Float.ofInt x ≤ Float.ofInt y ↔ x ≤ y := by
  rw [le_iff, unpack_ofInt hx, unpack_ofInt hy]
  change ((whole x).compare (whole y)).any (·.isLE) = true ↔ _
  rw [compare_whole hx hy, Option.any_some, Ordering.isLE_iff_ne_gt, Int.compare_eq_gt,
    Int.not_lt]

/-- So it is with being equal. -/
theorem ofInt_beq : (Float.ofInt x == Float.ofInt y) = true ↔ x = y := by
  rw [beq_iff, unpack_ofInt hx, unpack_ofInt hy, compare_whole hx hy, Option.some_inj,
    Int.compare_eq_eq]

end Order

end CommodoreBasic.Number
