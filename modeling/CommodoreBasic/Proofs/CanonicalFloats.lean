import CommodoreBasic.Proofs.FiniteFloats

/-!
# Canonical floating numbers

An unpacked number is canonical if its exponent is the one that the format asks for: the mantissa has
all of its 53 digits, or it has fewer and the exponent is the least. What is unpacked from a floating
number is canonical. Packing loses nothing of a canonical number, and rounding leaves it alone, whatever
zeros stand behind its digits. So two floating numbers that unpack to the same are the same.
-/

namespace CommodoreBasic.Number

open Float.Model (Format UnpackedFloat totalExponent)
open Float.Model.UnpackedFloat (Sign Accuracy ExtendedMantissa shiftToTargetExponent shiftToExponent
  roundWithAccuracy unpackSign unpackExponent unpackMantissa packComponents
  unpackExponent_packComponents unpackMantissa_packComponents)
open Float.Model.UnpackedFloat.ExtendedMantissa (ofMantissaAndAccuracy)

variable {s : Sign} {m n k : Nat} {e : Int}

/-! ## Packing -/

section Packing

variable {format : Format}

/-- The sign is the digit in front of the others. -/
theorem ofBitVec_unpackSign (s : Sign) (e : BitVec format.exponentBits)
    (m : BitVec format.mantissaBitsWithoutImplicit) :
    Sign.ofBitVec (unpackSign (packComponents format s e m)) = s := by
  have hdigit : (unpackSign (packComponents format s e m)).getLsbD 0 = s.toBitVec.getLsbD 0 := by
    delta unpackSign
    rw [packComponents, BitVec.getLsbD_cast, BitVec.getLsbD_extractLsb, BitVec.getLsbD_append,
      if_neg (by omega), BitVec.getLsbD_append, if_neg (by omega), decide_eq_true (by omega),
      Bool.true_and]
    congr 1
    omega
  have hsign : unpackSign (packComponents format s e m) = s.toBitVec :=
    BitVec.eq_of_getLsbD_eq fun i hi => Nat.lt_one_iff.mp hi ▸ hdigit
  rw [hsign]
  cases s <;> rfl

/-- A packed number consists of its parts. -/
theorem packComponents_unpack (b : BitVec format.numBits) :
    packComponents format (Sign.ofBitVec (unpackSign b)) (unpackExponent b) (unpackMantissa b) = b := by
  have hsign (v : BitVec 1) : (Sign.ofBitVec v).toBitVec = v := by
    obtain rfl | rfl := BitVec.eq_zero_or_eq_one v <;> rfl
  have hm := format.hm
  have he := format.he
  rw [packComponents, hsign]
  delta unpackSign unpackExponent unpackMantissa
  refine BitVec.eq_of_getLsbD_eq fun i hi => ?_
  rw [BitVec.getLsbD_append, BitVec.getLsbD_append, BitVec.getLsbD_cast, BitVec.getLsbD_cast,
    BitVec.getLsbD_cast, BitVec.getLsbD_extractLsb, BitVec.getLsbD_extractLsb,
    BitVec.getLsbD_extractLsb]
  split
  case isTrue hmantissa =>
    rw [decide_eq_true (by omega), Bool.true_and, Nat.zero_add]
  case isFalse =>
    split
    case isTrue hexponent =>
      rw [decide_eq_true (by omega), Bool.true_and]
      congr 1
      omega
    case isFalse =>
      rw [decide_eq_true (by omega), Bool.true_and]
      congr 1
      omega

/-- The first digit of a mantissa with all its digits is a one. It is not packed but put back. -/
theorem toNat_one_append {width : Nat} (v : BitVec width) : (1#1 ++ v).toNat = 2 ^ width + v.toNat := by
  rw [BitVec.toNat_append, ← Nat.shiftLeft_add_eq_or_of_lt v.isLt, Nat.shiftLeft_eq]
  exact congrArg (· + v.toNat) (Nat.one_mul _)

/-- A mantissa with its leading bit written out is itself again. -/
theorem toNat_append_ofNat {width : Nat} (hpos : 0 < m) (hm : m.log2 = width) :
    (1#1 ++ BitVec.ofNat width m).toNat = m := by
  obtain ⟨hle, hlt⟩ := (Nat.log2_eq_iff (Nat.ne_of_gt hpos)).mp hm
  have hmod : m % 2 ^ width = m - 2 ^ width := by
    rw [Nat.mod_eq_sub_mod hle, Nat.mod_eq_of_lt (by rw [Nat.pow_succ] at hlt; omega)]
  rw [toNat_one_append, BitVec.toNat_ofNat, hmod]
  omega

/-- The leading bit fixes the length of a mantissa. -/
theorem log2_toNat_one_append {width : Nat} (v : BitVec width) : (1#1 ++ v).toNat.log2 = width := by
  have hlt := v.isLt
  have hpos : 0 < 2 ^ width := Nat.two_pow_pos width
  rw [toNat_one_append, Nat.log2_eq_iff (by omega), Nat.pow_succ]
  omega

/-- Without the leading bit the other bits are left. -/
theorem ofNat_toNat_one_append {width : Nat} (v : BitVec width) :
    BitVec.ofNat width (1#1 ++ v).toNat = v := by
  refine BitVec.eq_of_toNat_eq ?_
  rw [BitVec.toNat_ofNat, toNat_one_append, Nat.add_mod_left, Nat.mod_eq_of_lt v.isLt]

/-- Unpacked numbers with the same parts are the same. -/
theorem finite_congr {s' : Sign} {m' : Nat} {e' : Int} {hpos : 0 < m} {hpos' : 0 < m'}
    (hs : s = s') (hm : m = m') (he : e = e') :
    UnpackedFloat.finite s m e hpos = .finite s' m' e' hpos' := by
  subst hs hm he
  rfl

/-- The parts of a number with all its digits. -/
theorem pack_of_log2 (biased : Nat) (hpos : 0 < m)
    (hm : m.log2 = format.mantissaBitsWithoutImplicit)
    (he : e + format.exponentBias + format.mantissaBitsWithoutImplicit = biased)
    (hgreatest : biased + 1 < 2 ^ format.exponentBits) :
    UnpackedFloat.pack format (.finite s m e hpos) =
      packComponents format s (BitVec.ofNat _ biased) (BitVec.ofNat _ m) := by
  have hbiased : (e + format.exponentBias + format.mantissaBitsWithoutImplicit).toNat =
      biased := by rw [he, Int.toNat_natCast]
  delta UnpackedFloat.pack
  dsimp only
  rw [hbiased, if_neg (Nat.not_le_of_lt hgreatest)]
  exact if_pos (by rw [hm]; exact Nat.add_comm _ _)

/-- The parts of a number with fewer digits and the least exponent. -/
theorem pack_of_lt (hpos : 0 < m) (hm : m < 2 ^ format.mantissaBitsWithoutImplicit)
    (he : e + format.exponentBias + format.mantissaBitsWithoutImplicit = 1)
    (hbits : 2 < 2 ^ format.exponentBits) :
    UnpackedFloat.pack format (.finite s m e hpos) =
      packComponents format s 0#_ (BitVec.ofNat _ m) := by
  have hlog : ¬ m.log2 + 1 = format.mantissaBits := by
    have hlt := (Nat.log2_lt (Nat.ne_of_gt hpos)).mpr hm
    change ¬ m.log2 + 1 = 1 + format.mantissaBitsWithoutImplicit
    omega
  delta UnpackedFloat.pack
  dsimp only
  rw [he]
  exact (if_neg (Nat.not_le_of_lt hbits)).trans (if_neg hlog)

/-- A number with all its digits is packed without loss if its exponent is within the bounds. -/
theorem unpack_pack_of_log2 (biased : Nat) (hpos : 0 < m)
    (hm : m.log2 = format.mantissaBitsWithoutImplicit)
    (he : e + format.exponentBias + format.mantissaBitsWithoutImplicit = biased)
    (hleast : 0 < biased) (hgreatest : biased + 1 < 2 ^ format.exponentBits) :
    UnpackedFloat.unpack format (UnpackedFloat.pack format (.finite s m e hpos)) =
      .finite s m e hpos := by
  have htoNat : (BitVec.ofNat format.exponentBits biased).toNat = biased := by
    rw [BitVec.toNat_ofNat, Nat.mod_eq_of_lt (by omega)]
  rw [pack_of_log2 biased hpos hm he hgreatest]
  generalize BitVec.ofNat format.exponentBits biased = exponent at htoNat ⊢
  have hinfinite : exponent ≠ -1#_ := by
    rintro rfl
    rw [BitVec.neg_one_eq_allOnes, BitVec.toNat_allOnes] at htoNat
    omega
  have hzero : exponent ≠ 0#_ := by
    rintro rfl
    rw [BitVec.toNat_zero] at htoNat
    omega
  have hexponent : (exponent.toNat : Int) -
      (format.exponentBias + format.mantissaBitsWithoutImplicit) = e := by omega
  have hmantissa : (1#1 ++ unpackMantissa
      (packComponents format s exponent (BitVec.ofNat _ m))).toNat = m := by
    rw [unpackMantissa_packComponents, toNat_append_ofNat hpos hm]
  delta UnpackedFloat.unpack
  dsimp only
  rw [unpackExponent_packComponents, if_neg hinfinite, if_neg hzero]
  exact finite_congr (ofBitVec_unpackSign s exponent _) hmantissa hexponent

/-- A number with fewer digits and the least exponent is packed without loss. -/
theorem unpack_pack_subnormal (hpos : 0 < m) (hm : m < 2 ^ format.mantissaBitsWithoutImplicit)
    (he : e + format.exponentBias + format.mantissaBitsWithoutImplicit = 1)
    (hbits : 2 < 2 ^ format.exponentBits) :
    UnpackedFloat.unpack format (UnpackedFloat.pack format (.finite s m e hpos)) =
      .finite s m e hpos := by
  have hinfinite : (0#_ : BitVec format.exponentBits) ≠ -1#_ := by
    intro heq
    have htoNat := congrArg BitVec.toNat heq
    rw [BitVec.neg_one_eq_allOnes, BitVec.toNat_allOnes, BitVec.toNat_zero] at htoNat
    omega
  have hmantissa : (unpackMantissa (packComponents format s 0#_ (BitVec.ofNat _ m))).toNat = m := by
    rw [unpackMantissa_packComponents, BitVec.toNat_ofNat, Nat.mod_eq_of_lt hm]
  have hnonzero : unpackMantissa (packComponents format s 0#_ (BitVec.ofNat _ m)) ≠ 0#_ := by
    intro heq
    rw [heq, BitVec.toNat_zero] at hmantissa
    omega
  have hexponent : ((0#_ : BitVec format.exponentBits).toNat : Int) -
      (format.exponentBias + format.mantissaBitsWithoutImplicit) + 1 = e := by
    rw [BitVec.toNat_zero]
    omega
  rw [pack_of_lt hpos hm he hbits]
  delta UnpackedFloat.unpack
  dsimp only
  rw [unpackExponent_packComponents, if_neg hinfinite, if_pos rfl]
  exact (dif_neg hnonzero).trans (finite_congr (ofBitVec_unpackSign s _ _) hmantissa hexponent)

/-- What a number is packed as that unpacks to digits. -/
theorem of_unpack_eq_finite {b : BitVec format.numBits} {hpos : 0 < m}
    (h : UnpackedFloat.unpack format b = .finite s m e hpos) :
    Sign.ofBitVec (unpackSign b) = s ∧
      (unpackExponent b = 0#_ ∧ (unpackMantissa b).toNat = m ∧
          e + format.exponentBias + format.mantissaBitsWithoutImplicit = 1 ∨
        unpackExponent b ≠ 0#_ ∧ unpackExponent b ≠ -1#_ ∧ (1#1 ++ unpackMantissa b).toNat = m ∧
          e + format.exponentBias + format.mantissaBitsWithoutImplicit =
            (unpackExponent b).toNat) := by
  delta UnpackedFloat.unpack at h
  dsimp only at h
  by_cases hgreatest : unpackExponent b = -1#_
  · rw [if_pos hgreatest] at h
    by_cases hinfinite : unpackMantissa b = 0#_
    · rw [if_pos hinfinite] at h
      cases h
    · rw [if_neg hinfinite] at h
      cases h
  · rw [if_neg hgreatest] at h
    by_cases hleast : unpackExponent b = 0#_
    · rw [if_pos hleast] at h
      by_cases hzero : unpackMantissa b = 0#_
      · rw [dif_pos hzero] at h
        cases h
      · rw [dif_neg hzero] at h
        obtain ⟨hs, hm, he⟩ := UnpackedFloat.finite.inj h
        refine ⟨hs, .inl ⟨hleast, hm, ?_⟩⟩
        rw [hleast, BitVec.toNat_zero] at he
        omega
    · rw [if_neg hleast] at h
      obtain ⟨hs, hm, he⟩ := UnpackedFloat.finite.inj h
      exact ⟨hs, .inr ⟨hleast, hgreatest, hm, by omega⟩⟩

/-- A number that unpacks to digits is packed again as it was. -/
theorem pack_of_unpack_eq_finite {b : BitVec format.numBits} {hpos : 0 < m}
    (h : UnpackedFloat.unpack format b = .finite s m e hpos) (hbits : 2 < 2 ^ format.exponentBits) :
    UnpackedFloat.pack format (.finite s m e hpos) = b := by
  obtain ⟨rfl, ⟨hleast, hm, he⟩ | ⟨hleast, hgreatest, rfl, he⟩⟩ := of_unpack_eq_finite h
  · have hmantissa : BitVec.ofNat _ m = unpackMantissa b := by
      rw [← hm, BitVec.ofNat_toNat, BitVec.setWidth_eq]
    rw [pack_of_lt hpos (hm ▸ BitVec.isLt _) he hbits, hmantissa, ← hleast, packComponents_unpack]
  · have hless : (unpackExponent b).toNat + 1 < 2 ^ format.exponentBits := by
      have hlt := (unpackExponent b).isLt
      have hne : (unpackExponent b).toNat ≠ 2 ^ format.exponentBits - 1 := by
        intro heq
        refine hgreatest (BitVec.eq_of_toNat_eq ?_)
        rw [heq, BitVec.neg_one_eq_allOnes, BitVec.toNat_allOnes]
      omega
    rw [pack_of_log2 _ hpos (log2_toNat_one_append _) he hless, ofNat_toNat_one_append,
      BitVec.ofNat_toNat, BitVec.setWidth_eq, packComponents_unpack]

end Packing

/-! ## Canonical numbers -/

/-- The exponent is the one that the format asks for. -/
def Canonical (m : Nat) (e : Int) : Prop :=
  Format.binary64.targetExponent (totalExponent m e) = e

/-- A number is canonical if its exponent is the one that rounding would choose. -/
theorem canonical_iff : Canonical m e ↔ max ((m.log2 : Int) + 1 + e - 53) (-1074) = e := Iff.rfl

/-- A mantissa of full length is canonical. -/
theorem canonical_of_log2 (hm : m.log2 = 52) (he : -1074 ≤ e) : Canonical m e := by
  rw [canonical_iff]
  omega

/-- A canonical number has a mantissa of full length or the least exponent. -/
theorem Canonical.cases (h : Canonical m e) :
    m.log2 = 52 ∧ -1074 ≤ e ∨ m.log2 < 52 ∧ e = -1074 := by
  rw [canonical_iff] at h
  omega

/-- A canonical number that is not too great is packed without loss. -/
theorem Canonical.unpack_pack (h : Canonical m e) (hpos : 0 < m) (he : e ≤ 971) :
    (Float.Model.pack (.finite s m e hpos)).unpack = .finite s m e hpos := by
  obtain ⟨hm, hleast⟩ | ⟨hm, rfl⟩ := h.cases
  · refine unpack_pack_of_log2 (e + 1075).toNat hpos hm ?_ (by omega) ?_
    · change e + 1023 + 52 = _
      omega
    · change _ < 2048
      omega
  · exact unpack_pack_subnormal hpos ((Nat.log2_lt (Nat.ne_of_gt hpos)).mp hm) (by rfl) (by decide)

section Unpacked

variable {x y : Float} {hpos : 0 < m} (hx : x.toModel.unpack = .finite s m e hpos)
include hx

/-- What is unpacked is canonical. -/
theorem canonical_of_unpack : Canonical m e := by
  obtain ⟨-, ⟨-, hm, he⟩ | ⟨hleast, -, rfl, he⟩⟩ := of_unpack_eq_finite hx
  · replace he : e + 1023 + 52 = 1 := he
    have hlog : m.log2 < 52 := (Nat.log2_lt (Nat.ne_of_gt hpos)).mpr (hm ▸ BitVec.isLt _)
    rw [canonical_iff]
    omega
  · replace he : e + 1023 + 52 = _ := he
    have hexponent : (@unpackExponent .binary64 x.toModel.toBits.toBitVec).toNat ≠ 0 :=
      fun heq => hleast (BitVec.eq_of_toNat_eq heq)
    exact canonical_of_log2 (log2_toNat_one_append _) (by omega)

/-- What is unpacked is within the bounds of the format. -/
theorem held_of_unpack : m < 2 ^ 53 ∧ e ≤ 971 := by
  have hfinite : x.isFinite = true := by
    change x.toModel.unpack.isFinite = true
    rw [hx]
    rfl
  have hheld := held_unpack hfinite
  rwa [hx] at hheld

/-- What is unpacked packs to the number it came from. -/
theorem toModel_of_unpack : x.toModel = Float.Model.pack (.finite s m e hpos) := by
  have hbits := pack_of_unpack_eq_finite hx (by decide)
  generalize x.toModel = model at hbits ⊢
  obtain ⟨bits, hvalid⟩ := model
  have hword : bits = UInt64.ofBitVec (UnpackedFloat.pack .binary64 (.finite s m e hpos)) :=
    congrArg UInt64.ofBitVec hbits.symm
  subst hword
  rfl

/-- Numbers that unpack to the same digits are the same. -/
theorem eq_of_unpack (hy : y.toModel.unpack = .finite s m e hpos) : x = y :=
  congrArg Float.ofModel ((toModel_of_unpack hx).trans (toModel_of_unpack hy).symm)

/-- The absolute value has the same mantissa and exponent. -/
theorem unpack_abs : x.abs.toModel.unpack = .finite .positive m e hpos := by
  change (Float.Model.pack x.toModel.unpack.abs).unpack = _
  rw [hx]
  exact (canonical_of_unpack hx).unpack_pack hpos (held_of_unpack hx).2

/-- So has the number with the other sign. -/
theorem unpack_neg : (-x).toModel.unpack = .finite (-s) m e hpos := by
  change (Float.Model.pack x.toModel.unpack.neg).unpack = _
  rw [hx]
  exact (canonical_of_unpack hx).unpack_pack hpos (held_of_unpack hx).2

/-- A number other than zero is equal to itself only. -/
theorem eq_of_beq (h : (y == x) = true) : y = x := by
  have hsame {m' : Nat} {e' : Int} (h : (compare e' e).then (compare m' m) = .eq) :
      m' = m ∧ e' = e := by
    rw [Ordering.then_eq_eq, Int.compare_eq_eq, Nat.compare_eq_eq] at h
    exact h.symm
  rw [beq_iff, hx] at h
  cases hy : y.toModel.unpack with
  | notANumber =>
    rw [hy] at h
    cases h
  | infinity s' =>
    rw [hy] at h
    cases s' <;> cases h
  | zero =>
    rw [hy] at h
    cases s <;> cases h
  | finite s' m' e' hpos' =>
    rw [hy] at h
    cases s' <;> cases s
    case negative.positive | positive.negative => cases h
    case negative.negative =>
      obtain ⟨rfl, rfl⟩ := hsame (Ordering.swap_eq_eq.mp (Option.some.inj h))
      exact eq_of_unpack hy hx
    case positive.positive =>
      obtain ⟨rfl, rfl⟩ := hsame (Option.some.inj h)
      exact eq_of_unpack hy hx

end Unpacked

/-! ## Rounding -/

/-- A factor of two to some power adds that power to the logarithm. -/
theorem log2_mul_two_pow (hn : 0 < n) (k : Nat) : (n * 2 ^ k).log2 = n.log2 + k := by
  induction k with
  | zero => rw [Nat.pow_zero, Nat.mul_one, Nat.add_zero]
  | succ k ih =>
    have hpos : n * 2 ^ k ≠ 0 := Nat.ne_of_gt (Nat.mul_pos hn (Nat.two_pow_pos k))
    rw [Nat.pow_succ, ← Nat.mul_assoc, Nat.mul_comm _ 2, Nat.log2_two_mul hpos, ih, Nat.add_assoc]

/-- A canonical number is found again from a mantissa with zeros behind it. -/
theorem Canonical.shiftToTargetExponent (h : Canonical m (e + k)) (hpos : 0 < m) :
    shiftToTargetExponent .binary64 (m * 2 ^ k) e .exact =
      (ofMantissaAndAccuracy m .exact, e + k) := by
  have hamount : (max (((m * 2 ^ k).log2 : Int) + 1 + e - 53) (-1074) - e).toNat = k := by
    rw [canonical_iff] at h
    rw [log2_mul_two_pow hpos]
    omega
  rw [UnpackedFloat.shiftToTargetExponent, shiftToExponent, targetExponent_eq, hamount,
    shiftRight_mul_two_pow]

/-- What has not been rounded to zero is as it is after both shifts. -/
theorem roundWithAccuracy_of_pos {a : Accuracy} {first second : ExtendedMantissa × Int}
    (hfirst : shiftToTargetExponent .binary64 m e a = first)
    (hsecond : shiftToTargetExponent .binary64 first.1.roundedMantissa first.2 .exact = second)
    (hpos : 0 < second.1.mantissa) :
    roundWithAccuracy .binary64 s m e a = .finite s second.1.mantissa second.2 hpos := by
  subst hfirst hsecond
  exact dif_neg (Nat.ne_of_gt hpos)

/-- A canonical number is not rounded, whatever zeros stand behind it. -/
theorem Canonical.roundWithAccuracy {e' : Int} (h : Canonical m e) (hpos : 0 < m) (he : e' + k = e) :
    roundWithAccuracy .binary64 s (m * 2 ^ k) e' .exact = .finite s m e hpos := by
  subst he
  have hagain : UnpackedFloat.shiftToTargetExponent .binary64 m (e' + k) .exact =
      (ofMantissaAndAccuracy m .exact, e' + k) := by
    have hunshifted := Canonical.shiftToTargetExponent (k := 0) (e := e' + k)
      (by rwa [Int.natCast_zero, Int.add_zero]) hpos
    rwa [Nat.pow_zero, Nat.mul_one, Int.natCast_zero, Int.add_zero] at hunshifted
  exact roundWithAccuracy_of_pos (h.shiftToTargetExponent hpos) hagain hpos

/-- Two shifts are one. -/
theorem shiftRight_add (em : ExtendedMantissa) (n k : Nat) : em >>> (n + k) = em >>> n >>> k := by
  induction k with
  | zero => rfl
  | succ k ih => exact congrArg ExtendedMantissa.shiftRightOne ih

/-- Zeros behind 53 digits make no difference to rounding. -/
theorem roundWithAccuracy_mul_two_pow (hn : 52 ≤ n.log2) (k : Nat) (e : Int) :
    roundWithAccuracy .binary64 s (n * 2 ^ k) e .exact =
      roundWithAccuracy .binary64 s n (e + k) .exact := by
  have hpos : 0 < n := by
    refine Nat.pos_of_ne_zero fun hzero => ?_
    rw [hzero, Nat.log2_zero] at hn
    omega
  have hshift : shiftToTargetExponent .binary64 (n * 2 ^ k) e .exact =
      shiftToTargetExponent .binary64 n (e + k) .exact := by
    obtain ⟨amount, hamount⟩ : ∃ amount : Nat,
        max ((n.log2 : Int) + 1 + (e + k) - 53) (-1074) - (e + k) = amount :=
      ⟨(max ((n.log2 : Int) + 1 + (e + k) - 53) (-1074) - (e + k)).toNat, by omega⟩
    have hlonger : max (((n * 2 ^ k).log2 : Int) + 1 + e - 53) (-1074) - e = (k + amount : Nat) := by
      rw [log2_mul_two_pow hpos]
      omega
    rw [shiftToTargetExponent, shiftToExponent, targetExponent_eq, hlonger, Int.toNat_natCast,
      shiftRight_add, shiftRight_mul_two_pow, shiftToTargetExponent, shiftToExponent,
      targetExponent_eq, hamount, Int.toNat_natCast, Int.natCast_add, Int.add_assoc]
  delta UnpackedFloat.roundWithAccuracy
  rw [hshift]

end CommodoreBasic.Number
