import CommodoreBasic.Number.Shortest
import CommodoreBasic.Proofs.WholeFloats

/-!
# The decimal of a number reads back

A decimal is read by rounding its exact value, in one of two ways: as a product or quotient with a power
of ten that is a floating number itself, or through numbers of any length. Rounding looks at the value
only and not at the form that it comes in, so for a whole number both ways agree, and the zeros at its end
may be counted among its digits or in its exponent.

The decimal that stands for a number in texts is one that was found to read back, or the exact value of
the number. The exact value reads back since a number is not rounded to another.
-/

namespace CommodoreBasic.Number

open Float.Model (Format UnpackedFloat totalExponent)
open Float.Model.UnpackedFloat (Sign Accuracy roundWithAccuracy divCore accuracyOfFraction)

variable {x : Float} {m n k p : Nat} {e : Int}

/-! ## Rounding one value in two forms -/

/-- Rounding looks at the value only, if there are 53 digits. -/
theorem roundWithAccuracy_congr {s : Sign} {k' : Nat} {e' : Int} (hn : 0 < n)
    (hk : 52 ≤ n.log2 + k) (hk' : 52 ≤ n.log2 + k') (he : e + k = e' + k') :
    roundWithAccuracy .binary64 s (n * 2 ^ k) e .exact =
      roundWithAccuracy .binary64 s (n * 2 ^ k') e' .exact := by
  -- the longer form is the shorter one with zeros behind it
  have hlonger {k k' : Nat} {e e' : Int} (hk : 52 ≤ n.log2 + k) (he : e + k = e' + k')
      (hle : k ≤ k') : roundWithAccuracy .binary64 s (n * 2 ^ k') e' .exact =
        roundWithAccuracy .binary64 s (n * 2 ^ k) e .exact := by
    obtain ⟨zeros, rfl⟩ := Nat.exists_eq_add_of_le hle
    have hdigits : 52 ≤ (n * 2 ^ k).log2 := by rwa [log2_mul_two_pow hn]
    obtain rfl : e = e' + zeros := by omega
    rw [Nat.pow_add, ← Nat.mul_assoc, roundWithAccuracy_mul_two_pow hdigits]
  rcases Nat.le_total k k' with hle | hle
  · exact (hlonger hk he hle).symm
  · exact hlonger hk' he.symm hle

/-- The floating number nearest to a whole number. -/
def nearest (n : Nat) : Float.Model :=
  Float.Model.pack (roundWithAccuracy .binary64 .positive (n * 2 ^ 53) (-53) .exact)

/-! ## Reading whole numbers -/

/-- The table has the powers of ten that are floating numbers. -/
theorem toModel_powerOfTen : ∀ p : Fin 23,
    (Float.exactlyRepresentablePowersOfTen[p.val]).toModel =
      Float.Model.pack (.finite .positive (aligned (5 ^ p.val)) (((5 ^ p.val).log2 : Int) - 52 + p.val)
        (aligned_pos (Nat.pow_pos (by decide)))) := by
  decide +kernel

/-- The powers of five that the table needs are exact. -/
theorem five_pow_lt (hp : p ≤ 22) : 5 ^ p < 2 ^ 53 :=
  Nat.lt_of_le_of_lt (Nat.pow_le_pow_right (by decide) hp) (by decide)

/-- The powers of ten in the table are exact. -/
theorem unpack_powerOfTen (p : Fin 23) :
    (Float.exactlyRepresentablePowersOfTen[p.val]).toModel.unpack =
      .finite .positive (aligned (5 ^ p.val)) (((5 ^ p.val).log2 : Int) - 52 + p.val)
        (aligned_pos (Nat.pow_pos (by decide))) := by
  have hbound : 5 ^ p.val < 2 ^ 53 := five_pow_lt (Nat.le_of_lt_succ p.isLt)
  have hdigits := log2_le_of_lt hbound
  have hp := p.isLt
  rw [toModel_powerOfTen]
  exact (canonical_of_log2 (log2_aligned (Nat.pow_pos (by decide)) hbound) (by omega)).unpack_pack _
    (by omega)

/-- A power of ten is one of five and one of two. -/
theorem ten_pow (p : Nat) : 10 ^ p = 5 ^ p * 2 ^ p := Nat.mul_pow 5 2 p

/-- A product is rounded once. -/
theorem toModel_mul {y : Float} {a : Nat} {ha : 0 < a} {hm : 0 < m} {e' : Int}
    (hx : x.toModel.unpack = .finite .positive m e hm)
    (hy : y.toModel.unpack = .finite .positive a e' ha) :
    (x * y).toModel =
      Float.Model.pack (roundWithAccuracy .binary64 .positive (m * a) (e + e') .exact) := by
  change Float.Model.pack (UnpackedFloat.mul .binary64 x.toModel.unpack y.toModel.unpack) = _
  rw [hx, hy]
  rfl

/-- The product with a power of ten from the table is rounded from the exact value. -/
theorem toModel_mul_powerOfTen (hn : 0 < n) (hbound : n < 2 ^ 53) (p : Fin 23) :
    (n.toUInt64.toFloat * Float.exactlyRepresentablePowersOfTen[p.val]).toModel =
      nearest (n * 10 ^ p.val) := by
  have hfive : 5 ^ p.val < 2 ^ 53 := five_pow_lt (Nat.le_of_lt_succ p.isLt)
  have hlog := log2_le_of_lt hbound
  have hlog' := log2_le_of_lt hfive
  have hwhole : n.toUInt64.toFloat.toModel.unpack =
      .finite .positive (aligned n) (n.log2 - 52) (aligned_pos hn) := by
    rw [unpack_toFloat hbound]
    exact whole_apply (s := .positive) hn hbound
  have hmantissa : aligned n * aligned (5 ^ p.val) =
      n * 5 ^ p.val * 2 ^ (52 - n.log2 + (52 - (5 ^ p.val).log2)) := by
    rw [aligned, aligned, Nat.mul_mul_mul_comm, Nat.pow_add]
  have hexact : n * 10 ^ p.val * 2 ^ 53 = n * 5 ^ p.val * 2 ^ (p.val + 53) := by
    rw [ten_pow, ← Nat.mul_assoc, Nat.mul_assoc, ← Nat.pow_add]
  have hpos : 0 < n * 5 ^ p.val := Nat.mul_pos hn (Nat.pow_pos (by decide))
  have hdigits : n.log2 + (5 ^ p.val).log2 ≤ (n * 5 ^ p.val).log2 := by
    rw [Nat.le_log2 (Nat.ne_of_gt hpos), Nat.pow_add]
    exact Nat.mul_le_mul (Nat.log2_self_le (Nat.ne_of_gt hn))
      (Nat.log2_self_le (Nat.ne_of_gt (Nat.pow_pos (by decide))))
  rw [toModel_mul hwhole (unpack_powerOfTen p), nearest, hmantissa, hexact]
  exact congrArg Float.Model.pack (roundWithAccuracy_congr hpos (by omega) (by omega) (by omega))

/-- The other way is through numbers of any length. -/
theorem ofScientific_mul (hn : 0 < n) (hp : p ≤ 2048) :
    Float.Model.ofScientific n p = nearest (n * 10 ^ p) := by
  have hzero : n ≠ 0 := Nat.ne_of_gt hn
  have hgreat : ¬ (p : Int) > 2 ^ Format.binary64.exponentBits := by
    change ¬ (p : Int) > 2048
    omega
  have hsmall : ¬ (p : Int) < -((2 ^ Format.binary64.exponentBits : Int) + n.log2) := by
    change ¬ (p : Int) < -(2048 + n.log2)
    omega
  have hmantissa : (n <<< 53) * 10 ^ p = n * 10 ^ p * 2 ^ 53 := by
    rw [Nat.shiftLeft_eq, Nat.mul_right_comm]
  change Float.Model.pack (UnpackedFloat.ofScientific .binary64 n p) = _
  delta UnpackedFloat.ofScientific
  rw [dif_neg hzero, if_neg hgreat, if_neg hsmall, if_pos (Int.natCast_nonneg p)]
  change Float.Model.pack (roundWithAccuracy .binary64 .positive ((n <<< 53) * 10 ^ p) (-53) .exact) = _
  rw [hmantissa, nearest]

/-- Zero times a power of ten is zero. -/
theorem ofScientific_zero (e : Int) : Float.Model.ofScientific 0 e = (0 : Float).toModel := rfl

/-- A whole number is read in one of the two ways. -/
theorem toFloat_cases (n p : Nat) :
    (n < 2 ^ 53 ∧ ∃ q : Fin 23, q.val = p ∧ Decimal.toFloat ⟨n, p⟩ =
        n.toUInt64.toFloat * Float.exactlyRepresentablePowersOfTen[q.val]) ∨
      Decimal.toFloat ⟨n, p⟩ = Float.ofModel (Float.Model.ofScientific n p) := by
  have hsign : decide ((p : Int) < 0) = false := decide_eq_false (by omega)
  rw [Decimal.toFloat, hsign]
  by_cases hfast : n < 2 ^ 53 ∧ p ≤ 22
  · exact .inl ⟨hfast.1, ⟨p, Nat.lt_succ_of_le hfast.2⟩, rfl, dif_pos hfast⟩
  · exact .inr (dif_neg hfast)

/-- A whole number is read as the number nearest to it. -/
theorem toModel_toFloat (hn : 0 < n) (hp : p ≤ 2048) :
    (Decimal.toFloat ⟨n, p⟩).toModel = nearest (n * 10 ^ p) := by
  obtain ⟨hbound, q, rfl, hread⟩ | hread := toFloat_cases n p
  · rw [hread, toModel_mul_powerOfTen hn hbound]
  · rw [hread]
    exact ofScientific_mul hn hp

/-- So a decimal without digits is zero. -/
theorem toFloat_zero (p : Nat) : Decimal.toFloat ⟨0, p⟩ = 0 := by
  obtain ⟨hbound, q, -, hread⟩ | hread := toFloat_cases 0 p
  · have hproduct : ((0 : Nat).toUInt64.toFloat *
        Float.exactlyRepresentablePowersOfTen[q.val]).toModel = (0 : Float).toModel := by
      change Float.Model.pack (UnpackedFloat.mul .binary64 (0 : Nat).toUInt64.toFloat.toModel.unpack
        _) = _
      rw [unpack_toFloat hbound, unpack_powerOfTen]
      rfl
    rw [hread]
    exact congrArg Float.ofModel hproduct
  · rw [hread, ofScientific_zero]

/-- Zeros at the end of a whole number are read alike as digits and in the exponent. -/
theorem toFloat_zeros (n : Nat) (hp : p ≤ 2048) :
    Decimal.toFloat ⟨n * 10 ^ p, 0⟩ = Decimal.toFloat ⟨n, p⟩ := by
  rcases Nat.eq_zero_or_pos n with rfl | hn
  · rw [Nat.zero_mul, toFloat_zero p]
    exact toFloat_zero 0
  · have hpos : 0 < n * 10 ^ p := Nat.mul_pos hn (Nat.pow_pos (by decide))
    have hzeros := toModel_toFloat (p := 0) hpos (Nat.zero_le _)
    rw [Nat.pow_zero, Nat.mul_one] at hzeros
    exact congrArg Float.ofModel (hzeros.trans (toModel_toFloat hn hp).symm)

/-! ## Reading exact values -/

/-- A division without a remainder is exact. -/
theorem divCore_of_dvd {m₁ m₂ q amount : Nat}
    (hamount : min 0 (max ((m₁.log2 : Int) + 1 + 0 - (m₂.log2 + 1 + 0) - 53) (-1074)) = -amount)
    (hpos : 0 < m₂) (hdividend : m₁ <<< amount = m₂ * q) :
    divCore .binary64 m₁ 0 m₂ 0 = (q, -(amount : Int), .exact) := by
  have htarget : min ((0 : Int) - 0)
      (Format.binary64.targetExponent (totalExponent m₁ 0 - totalExponent m₂ 0)) = -amount := hamount
  have hshift : ((0 : Int) - 0 - -(amount : Int)).toNat = amount := by omega
  rw [divCore, htarget, hshift, hdividend, Nat.mul_div_cancel_left q hpos, Nat.mul_mod_right]
  rfl

section Exact

variable {hm : 0 < m} (hx : x.toModel.unpack = .finite .positive m e hm)
include hx

/-- A number without places behind the point is read from its digits. -/
theorem toFloat_exact_whole (he : 0 ≤ e) : Decimal.toFloat ⟨m * 2 ^ e.toNat, 0⟩ = x := by
  have hpos : 0 < m * 2 ^ e.toNat := Nat.mul_pos hm (Nat.two_pow_pos _)
  have hread := toModel_toFloat (p := 0) hpos (Nat.zero_le _)
  rw [Nat.pow_zero, Nat.mul_one, nearest, Nat.mul_assoc, ← Nat.pow_add,
    (canonical_of_unpack hx).roundWithAccuracy hm (by omega), ← toModel_of_unpack hx] at hread
  exact congrArg Float.ofModel hread

/-- The quotient of the exact value by its power of ten has no remainder: the digits that are put behind
the dividend are more than the places behind the point. -/
theorem divCore_exact (he : e = -k) :
    ∃ zeros : Nat, divCore .binary64 (m * 5 ^ k) 0 (10 ^ k) 0 =
      (m * 2 ^ zeros, -((k + zeros : Nat) : Int), .exact) := by
  have hpower : 0 < 5 ^ k := Nat.pow_pos (by decide)
  have hleast := (canonical_of_unpack hx).cases
  have hlog : (m * 5 ^ k).log2 ≤ (5 ^ k).log2 + 53 := by
    refine log2_le_of_lt ?_
    have hproduct : m * 5 ^ k < 2 ^ 53 * 2 ^ ((5 ^ k).log2 + 1) :=
      Nat.mul_lt_mul_of_lt_of_lt (held_of_unpack hx).1 Nat.lt_log2_self
    have hsum : 53 + ((5 ^ k).log2 + 1) = (5 ^ k).log2 + 53 + 1 := by omega
    rwa [← Nat.pow_add, hsum] at hproduct
  have hlog' : (10 ^ k).log2 = (5 ^ k).log2 + k := by rw [ten_pow, log2_mul_two_pow hpower]
  obtain ⟨zeros, hzeros⟩ : ∃ zeros : Nat, min 0 (max (((m * 5 ^ k).log2 : Int) + 1 + 0 -
      ((10 ^ k).log2 + 1 + 0) - 53) (-1074)) = -((k + zeros : Nat) : Int) := by
    refine ⟨(-(k : Int) - min 0 (max (((m * 5 ^ k).log2 : Int) + 1 + 0 -
      ((10 ^ k).log2 + 1 + 0) - 53) (-1074))).toNat, ?_⟩
    rw [hlog']
    omega
  have hdividend : (m * 5 ^ k) <<< (k + zeros) = 10 ^ k * (m * 2 ^ zeros) := by
    rw [Nat.shiftLeft_eq, Nat.pow_add, ten_pow, Nat.mul_comm m, Nat.mul_mul_mul_comm]
  exact ⟨zeros, divCore_of_dvd hzeros (Nat.pow_pos (by decide)) hdividend⟩

/-- The exact value of a number with places behind the point has too many digits for the table. -/
theorem not_fast_of_places (he : e = -k) (hk : 0 < k) : ¬ (m * 5 ^ k < 2 ^ 53 ∧ k ≤ 22) := by
  rintro ⟨hlt, hle⟩
  have hlog : m.log2 = 52 := by
    have hcases := (canonical_of_unpack hx).cases
    omega
  have hm' : 2 ^ 52 ≤ m := hlog ▸ Nat.log2_self_le (Nat.ne_of_gt hm)
  have hfive : 5 ^ 1 ≤ 5 ^ k := Nat.pow_le_pow_right (by decide) hk
  have hproduct := Nat.mul_le_mul hm' hfive
  omega

/-- The exact value is rounded to the number itself. -/
theorem ofScientific_places (he : e = -k) (hk : 0 < k) :
    UnpackedFloat.ofScientific .binary64 (m * 5 ^ k) e = .finite .positive m e hm := by
  have hpos : 0 < m * 5 ^ k := Nat.mul_pos hm (Nat.pow_pos (by decide))
  have hleast := (canonical_of_unpack hx).cases
  have hgreat : ¬ e > 2 ^ Format.binary64.exponentBits := by
    change ¬ e > 2048
    omega
  have hsmall : ¬ e < -((2 ^ Format.binary64.exponentBits : Int) + (m * 5 ^ k).log2) := by
    change ¬ e < -(2048 + (m * 5 ^ k).log2)
    omega
  obtain ⟨zeros, hquotient⟩ := divCore_exact hx he
  have hexponent : -((k + zeros : Nat) : Int) + zeros = e := by omega
  obtain rfl : (-e).toNat = k := by omega
  delta UnpackedFloat.ofScientific
  rw [dif_neg (Nat.ne_of_gt hpos), if_neg hgreat, if_neg hsmall, if_neg (by omega)]
  change (fun quotient : Nat × Int × Accuracy =>
    roundWithAccuracy .binary64 .positive quotient.1 quotient.2.1 quotient.2.2)
      (divCore .binary64 (m * 5 ^ (-e).toNat) 0 (10 ^ (-e).toNat) 0) = _
  rw [hquotient]
  exact (canonical_of_unpack hx).roundWithAccuracy hm hexponent

/-- A number with places behind the point is read from its exact value. -/
theorem toFloat_exact_places (he : e = -k) (hk : 0 < k) : Decimal.toFloat ⟨m * 5 ^ k, e⟩ = x := by
  have hsign : decide (e < 0) = true := decide_eq_true (by omega)
  have hplaces : e.natAbs = k := by omega
  have hneg : Int.negOfNat k = e := Int.negOfNat_eq.trans he.symm
  have hread : Float.ofScientific (m * 5 ^ k) true k =
      Float.ofModel (Float.Model.ofScientific (m * 5 ^ k) (Int.negOfNat k)) :=
    dif_neg (not_fast_of_places hx he hk)
  have hmodel : Float.Model.ofScientific (m * 5 ^ k) e = x.toModel := by
    change Float.Model.pack (UnpackedFloat.ofScientific .binary64 (m * 5 ^ k) e) = _
    rw [ofScientific_places hx he hk, ← toModel_of_unpack hx]
  rw [Decimal.toFloat, hsign, hplaces, hread, hneg, hmodel]

end Exact

/-! ## The search -/

/-- What is found on a grid reads back and has the exponent of the grid. -/
theorem of_onGrid? {num den : Nat} {p : Int} {d : Decimal} (h : onGrid? x num den p = some d) :
    (d.toFloat == x) = true ∧ d.exponent = p := by
  unfold onGrid? at h
  dsimp only at h
  split at h
  case isTrue hbelow =>
    obtain rfl := Option.some.inj h
    exact ⟨(Bool.and_eq_true_iff.mp hbelow).1, rfl⟩
  case isFalse =>
    split at h
    case isTrue habove =>
      obtain rfl := Option.some.inj h
      exact ⟨habove, rfl⟩
    case isFalse => cases h

/-- What is found on the grids reads back. The first grid is the coarsest. -/
theorem of_onGrids? {num den count : Nat} {p : Int} {d : Decimal}
    (h : onGrids? x num den count p = some d) : (d.toFloat == x) = true ∧ d.exponent ≤ p := by
  induction count generalizing p with
  | zero => cases h
  | succ count ih =>
    rw [onGrids?] at h
    cases hgrid : onGrid? x num den p with
    | some d' =>
      rw [hgrid] at h
      obtain rfl : d' = d := Option.some.inj h
      exact ⟨(of_onGrid? hgrid).1, Int.le_of_eq (of_onGrid? hgrid).2⟩
    | none =>
      rw [hgrid] at h
      obtain ⟨hread, hle⟩ := ih h
      exact ⟨hread, by omega⟩

/-- The decimal of a number reads back, and its zeros are not beyond counting. -/
theorem toFloat_shortest {hm : 0 < m} (hx : x.toModel.unpack = .finite .positive m e hm) :
    (shortest x m e).toFloat = x ∧ (shortest x m e).exponent ≤ 2048 := by
  have hlog := log2_le_of_lt (held_of_unpack hx).1
  have hle := (held_of_unpack hx).2
  unfold shortest
  dsimp only
  split
  case h_1 d hfound =>
    obtain ⟨hread, hexponent⟩ := of_onGrids? hfound
    exact ⟨eq_of_beq hx hread, by omega⟩
  case h_2 =>
    split
    case isTrue hwhole =>
      refine ⟨toFloat_exact_whole hx hwhole, ?_⟩
      dsimp only
      omega
    case isFalse hplaces =>
      refine ⟨toFloat_exact_places hx (by omega) (by omega), ?_⟩
      dsimp only
      omega

end CommodoreBasic.Number
