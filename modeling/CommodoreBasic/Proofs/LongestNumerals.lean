import CommodoreBasic.Proofs.DecimalTexts
import CommodoreBasic.Proofs.ScannedWords

/-!
# The longest numeral

A numeral is a mantissa, which is digits with a point or without one, and perhaps an exponent. It is
scanned from the left without regard to what follows: digits and a point as far as they go, and then an
exponent if all of one is there. No other way to cut a numeral off the front of a text takes more of it.
A mantissa that ends sooner ends before a digit or a point, where no exponent begins.

A numeral whose mantissa has a digit reads as a number. A point alone is zero, and a point with an
exponent is the only numeral that has no value.
-/

namespace CommodoreBasic

open CommodoreBasic.Decimal

namespace Numeral

/-- Digits with a point among, before or after them, or without one. A point alone is enough. -/
inductive IsMantissa : List Char → Prop where
  | whole {ds : List Char} (hds : IsDigits ds) : IsMantissa ds
  | point {ds ps : List Char} (hds : ∀ c ∈ ds, c.isDigit = true) (hps : ∀ c ∈ ps, c.isDigit = true) :
    IsMantissa (ds ++ '.' :: ps)

/-- An exponent mark, a sign or none, and digits. -/
inductive IsExponent : List Char → Prop where
  | intro {mark : Char} {sign ds : List Char} (hmark : mark = 'E' ∨ mark = 'e')
    (hsign : sign = [] ∨ sign = ['+'] ∨ sign = ['-']) (hds : IsDigits ds) :
    IsExponent (mark :: (sign ++ ds))

/-- A mantissa, and an exponent or none. -/
structure HasParts (mantissa exponent cs : List Char) : Prop where
  eq_append : cs = mantissa ++ exponent
  isMantissa : IsMantissa mantissa
  isExponent : exponent = [] ∨ IsExponent exponent

/-- The characters are a numeral. -/
def WellFormed (cs : List Char) : Prop := ∃ m e, HasParts m e cs

/-- Of the beginnings of the text that have the property this one is the longest. -/
structure IsLongest (P : List Char → Prop) (cs w : List Char) : Prop where
  begins : w <+: cs
  property : P w
  longest : ∀ v, v <+: cs → P v → v.length ≤ w.length

/-! ## Mantissas -/

/-- A mantissa begins with a digit or a point. -/
theorem IsMantissa.start {m : List Char} (h : IsMantissa m) :
    ∃ c rest, m = c :: rest ∧ (c.isDigit || c == '.') = true := by
  cases h with
  | whole hds =>
    obtain ⟨c, rest, rfl⟩ := List.exists_cons_of_ne_nil hds.ne_nil
    exact ⟨c, rest, rfl, by rw [hds.isDigit c List.mem_cons_self]; rfl⟩
  | @point ds ps hds hps =>
    cases ds with
    | nil => exact ⟨'.', ps, rfl, rfl⟩
    | cons c ds => exact ⟨c, _, rfl, by rw [hds c List.mem_cons_self]; rfl⟩

/-- So it is not empty. -/
theorem IsMantissa.ne_nil {m : List Char} (h : IsMantissa m) : m ≠ [] := by
  obtain ⟨c, rest, rfl, -⟩ := h.start
  exact List.cons_ne_nil c rest

/-- All of a mantissa is taken, and perhaps digits behind it. -/
theorem mantissaLength_append {m : List Char} (h : IsMantissa m) (rest : List Char) :
    ∃ seenPoint, mantissaLength false (m ++ rest) = m.length + mantissaLength seenPoint rest := by
  cases h with
  | whole hds => exact ⟨false, mantissaLength_digits hds.isDigit false rest⟩
  | @point ds ps hds hps =>
    have hpoint : mantissaLength false ('.' :: (ps ++ rest)) = mantissaLength true (ps ++ rest) + 1 :=
      rfl
    refine ⟨true, ?_⟩
    rw [List.append_assoc, List.cons_append, mantissaLength_digits hds, hpoint,
      mantissaLength_digits hps, List.length_append, List.length_cons]
    omega

/-- What is taken behind a point is digits. -/
theorem isDigit_of_mem_take_mantissaLength (cs : List Char) :
    ∀ c ∈ cs.take (mantissaLength true cs), c.isDigit = true := by
  induction cs with
  | nil => simp
  | cons c cs ih =>
    rw [mantissaLength]
    split
    case isTrue hdigit => exact List.forall_mem_cons.mpr ⟨hdigit, ih⟩
    case isFalse => simp

/-- A digit may be put in front of a mantissa. -/
theorem isMantissa_cons {c : Char} {m : List Char} (hc : c.isDigit = true) (hm : m = [] ∨ IsMantissa m) :
    IsMantissa (c :: m) := by
  rcases hm with rfl | hds | ⟨hds, hps⟩
  · exact .whole ⟨List.cons_ne_nil _ _, List.forall_mem_singleton.mpr hc⟩
  · exact .whole ⟨List.cons_ne_nil _ _, List.forall_mem_cons.mpr ⟨hc, hds.isDigit⟩⟩
  · exact @IsMantissa.point (c :: _) _ (List.forall_mem_cons.mpr ⟨hc, hds⟩) hps

/-- What is taken is a mantissa, if it is anything. -/
theorem take_mantissaLength (cs : List Char) :
    cs.take (mantissaLength false cs) = [] ∨ IsMantissa (cs.take (mantissaLength false cs)) := by
  induction cs with
  | nil => exact .inl rfl
  | cons c cs ih =>
    rw [mantissaLength]
    split
    case isTrue hdigit => exact .inr (isMantissa_cons hdigit ih)
    case isFalse =>
      split
      case isTrue hpoint =>
        rw [Bool.and_eq_true, beq_iff_eq] at hpoint
        rw [List.take_succ_cons, hpoint.1]
        exact .inr (@IsMantissa.point [] _ (List.forall_mem_nil _)
          (isDigit_of_mem_take_mantissaLength cs))
      case isFalse => exact .inl rfl

/-! ## Exponents -/

/-- All of the sign of an exponent is taken. -/
theorem signLength_append {sign ds : List Char} (hsign : sign = [] ∨ sign = ['+'] ∨ sign = ['-'])
    (hds : IsDigits ds) (rest : List Char) :
    Token.signLength (sign ++ (ds ++ rest)) = sign.length := by
  obtain ⟨c, ds, rfl⟩ := List.exists_cons_of_ne_nil hds.ne_nil
  have hc := hds.isDigit c List.mem_cons_self
  rcases hsign with rfl | rfl | rfl
  · refine if_neg ?_
    rintro (h | h) <;> cases h <;> cases hc
  · rfl
  · rfl

/-- What is taken as a sign is one, or nothing. -/
theorem take_signLength (cs : List Char) :
    cs.take (Token.signLength cs) = [] ∨ cs.take (Token.signLength cs) = ['+'] ∨
      cs.take (Token.signLength cs) = ['-'] := by
  unfold Token.signLength
  split
  case isTrue h =>
    obtain ⟨c, cs, rfl⟩ : ∃ c us, cs = c :: us := by
      cases cs with
      | nil => simp at h
      | cons c cs => exact ⟨c, cs, rfl⟩
    exact .inr (h.imp (by rintro ⟨⟩; rfl) (by rintro ⟨⟩; rfl))
  case isFalse => exact .inl rfl

/-- All of an exponent is taken. -/
theorem length_le_exponentLength {e : List Char} (h : IsExponent e) (rest : List Char) :
    e.length ≤ exponentLength (e ++ rest) := by
  obtain @⟨mark, sign, ds, hmark, hsign, hds⟩ := h
  have hdigits : ds.length ≤ digitsLength (ds ++ rest) := by
    rw [digitsLength, List.takeWhile_append_of_pos hds.isDigit, List.length_append]
    exact Nat.le_add_right _ _
  have hpos := List.length_pos_iff.mpr hds.ne_nil
  have hmark : (mark == 'E' || mark == 'e') = true := by simpa using hmark
  rw [List.cons_append, List.append_assoc, Token.exponentLength_cons, signLength_append hsign hds,
    List.drop_left, if_pos ⟨hmark, by omega⟩, List.length_cons, List.length_append]
  omega

/-- What is taken is an exponent, if it is anything. -/
theorem take_exponentLength (cs : List Char) :
    cs.take (exponentLength cs) = [] ∨ IsExponent (cs.take (exponentLength cs)) := by
  cases cs with
  | nil => exact .inl rfl
  | cons c cs =>
    rw [Token.exponentLength_cons]
    split
    case isTrue h =>
      obtain ⟨hmark, hdigits⟩ := h
      rw [Bool.or_eq_true, beq_iff_eq, beq_iff_eq] at hmark
      generalize hus : cs.drop (Token.signLength cs) = us at hdigits ⊢
      have htake : us.take (digitsLength us) = us.takeWhile Char.isDigit :=
        (List.prefix_iff_eq_take.mp <| List.takeWhile_prefix _).symm
      rw [Nat.add_assoc, Nat.add_comm, List.take_succ_cons, List.take_add, hus, htake]
      refine .inr (.intro hmark (take_signLength cs) ⟨?_, fun d hd => List.mem_takeWhile_imp hd⟩)
      exact List.ne_nil_of_length_pos (Nat.pos_of_ne_zero hdigits)
    case isFalse => exact .inl rfl

/-- An exponent is what is taken as one, to its end. -/
theorem isExponent_iff {e : List Char} :
    IsExponent e ↔ e ≠ [] ∧ exponentLength e = e.length := by
  constructor
  · intro h
    have hle := length_le_exponentLength h []
    rw [List.append_nil] at hle
    refine ⟨?_, Nat.le_antisymm (Token.exponentLength_le e) hle⟩
    obtain ⟨-, -, -⟩ := h
    exact List.cons_ne_nil _ _
  · rintro ⟨hne, hlength⟩
    have htake := take_exponentLength e
    rw [hlength, List.take_length] at htake
    exact htake.resolve_left hne

/-- Whether a text is an exponent can be computed. -/
instance : DecidablePred IsExponent := fun _ => decidable_of_iff _ isExponent_iff.symm

/-! ## Numerals -/

/-- What is taken is a numeral. -/
theorem wellFormed_take {cs : List Char} (h : length cs ≠ 0) : WellFormed (cs.take (length cs)) := by
  rw [Token.numeralLength_eq] at h ⊢
  split at h
  case isTrue => exact absurd rfl h
  case isFalse hne =>
    have hle := Token.mantissaLength_le false cs
    rw [if_neg hne, List.take_add]
    refine ⟨_, _, rfl, (take_mantissaLength cs).resolve_left fun hnil => ?_, take_exponentLength _⟩
    have hlength := congrArg List.length hnil
    rw [List.length_take, List.length_nil] at hlength
    omega

/-- No numeral at the start of a text is longer than the one that is taken. -/
theorem HasParts.length_le {m e w cs : List Char} (h : HasParts m e w) (hw : w <+: cs) :
    w.length ≤ length cs := by
  obtain ⟨rfl, hm, he⟩ := h
  obtain ⟨rest, rfl⟩ := hw
  obtain ⟨seenPoint, hmantissa⟩ := mantissaLength_append hm (e ++ rest)
  have hpos := List.length_pos_iff.mpr hm.ne_nil
  rw [Token.numeralLength_eq, List.append_assoc, if_neg (by omega), hmantissa, List.length_append]
  rcases he with rfl | he
  · rw [List.length_nil]
    omega
  · -- An exponent mark ends the mantissa, so the exponent is looked for where it is.
    have hstop : mantissaLength seenPoint (e ++ rest) = 0 := by
      obtain ⟨rfl | rfl, -, -⟩ := he <;> rfl
    have hexponent := length_le_exponentLength he rest
    rw [hstop, Nat.add_zero, List.drop_left]
    omega

/-- The longest numeral at the start of a text is taken, and nothing if there is none. -/
theorem isLongest_take (cs : List Char) :
    (∃ w, IsLongest WellFormed cs w ∧ w.length = length cs) ∨
      length cs = 0 ∧ ∀ v, v <+: cs → ¬ WellFormed v := by
  have hle (v : List Char) (hv : v <+: cs) (h : WellFormed v) : v.length ≤ length cs := by
    obtain ⟨m, e, hparts⟩ := h
    exact hparts.length_le hv
  by_cases hzero : length cs = 0
  · refine .inr ⟨hzero, fun v hv h => ?_⟩
    have hnil := List.eq_nil_of_length_eq_zero (Nat.le_zero.mp (hzero ▸ hle v hv h))
    obtain ⟨m, e, hparts⟩ := h
    exact hparts.isMantissa.ne_nil (List.append_eq_nil_iff.mp (hparts.eq_append.symm.trans hnil)).1
  · have hlength : (cs.take (length cs)).length = length cs := by
      rw [List.length_take, Nat.min_eq_left (Token.numeralLength_le cs)]
    have hbegins : cs.take (length cs) <+: cs := List.take_prefix _ _
    refine .inl ⟨cs.take (length cs), ⟨hbegins, wellFormed_take hzero, ?_⟩, hlength⟩
    rwa [hlength]

/-! ## Values -/

/-- An exponent begins with neither a digit nor a point. -/
theorem IsExponent.head {e : List Char} (h : IsExponent e) :
    ∀ c, e.head? = some c → c.isDigit = false ∧ c ≠ '.' := by
  rintro c hc
  obtain ⟨rfl | rfl, -, -⟩ := h <;> cases hc <;> exact ⟨rfl, by decide⟩

/-- The digits of an exponent have a value, with a sign or without. -/
theorem exponent?_append {sign ds : List Char} (hsign : sign = [] ∨ sign = ['+'] ∨ sign = ['-'])
    (hds : IsDigits ds) : ∃ x, exponent? (sign ++ ds) = some x := by
  obtain ⟨c, cs, rfl⟩ := List.exists_cons_of_ne_nil hds.ne_nil
  have hdigits := List.forall_mem_cons.mp hds.isDigit
  have hplus : c ≠ '+' := by
    rintro rfl
    cases hdigits.1
  have hminus : c ≠ '-' := by
    rintro rfl
    cases hdigits.1
  rcases hsign with rfl | rfl | rfl
  · simpa [exponent?, hplus, hminus] using hdigits
  · simpa [exponent?] using hdigits
  · simpa [exponent?] using hdigits

/-- An exponent has a value. -/
theorem shift?_exponent {e : List Char} (he : e = [] ∨ IsExponent e) : ∃ x, shift? e = some x := by
  rcases he with rfl | ⟨hmark, hsign, hds⟩
  · exact ⟨0, rfl⟩
  · obtain ⟨x, hx⟩ := exponent?_append hsign hds
    rw [shift?, if_pos (by simpa using hmark.symm), hx]
    exact ⟨x, rfl⟩

/-- Only a numeral whose mantissa is a point alone is no decimal. -/
theorem HasParts.read?_eq_none_iff {m e cs : List Char} (h : HasParts m e cs) :
    Decimal.read? cs = none ↔ m = ['.'] := by
  obtain ⟨rfl, hm, he⟩ := h
  obtain ⟨x, hx⟩ := shift?_exponent he
  have hend : ∀ c, e.head? = some c → c.isDigit = false ∧ c ≠ '.' := by
    rcases he with rfl | he
    · simp
    · exact he.head
  cases hm with
  | whole hds =>
    have hempty : m.isEmpty = false := List.isEmpty_eq_false_iff.mpr hds.ne_nil
    rw [read?_whole hds.isDigit hend, hempty, hx]
    refine iff_of_false (by simp) ?_
    rintro rfl
    exact absurd (hds.isDigit '.' List.mem_cons_self) (by decide)
  | @point ds ps hds hps =>
    rw [List.append_assoc, List.cons_append, read?_point hds hps fun c hc => (hend c hc).1, hx]
    cases ds <;> cases ps <;> simp

/-- A numeral with its parts is read as a decimal. -/
theorem HasParts.read?_eq {m e cs : List Char} (h : HasParts m e cs) :
    Number.read? cs = (Decimal.read? cs).map Decimal.toFloat := by
  obtain ⟨c, rest, hm, hc⟩ := h.isMantissa.start
  rw [h.eq_append, hm, List.cons_append, Number.read?_of_start hc]

/-- A numeral that has a digit before its exponent reads as a number. -/
theorem HasParts.exists_read? {m e cs : List Char} (h : HasParts m e cs)
    (hdigit : ∃ c ∈ m, c.isDigit = true) : ∃ x, Number.read? cs = some x := by
  have hread : Decimal.read? cs ≠ none := by
    rw [ne_eq, h.read?_eq_none_iff]
    rintro rfl
    obtain ⟨c, hc, hdigit⟩ := hdigit
    obtain rfl := List.mem_singleton.mp hc
    cases hdigit
  obtain ⟨d, hd⟩ := Option.ne_none_iff_exists'.mp hread
  exact ⟨d.toFloat, by rw [h.read?_eq, hd, Option.map_some]⟩

/-- A point alone, and an exponent behind it. -/
inductive IsBarePoint : List Char → Prop where
  | intro {e : List Char} (he : IsExponent e) : IsBarePoint ('.' :: e)

/-- A bare point is a point with an exponent behind it. -/
theorem isBarePoint_iff {cs : List Char} :
    IsBarePoint cs ↔ cs.head? = some '.' ∧ IsExponent cs.tail := by
  constructor
  · rintro ⟨he⟩
    exact ⟨rfl, he⟩
  · rintro ⟨hpoint, he⟩
    obtain ⟨e, rfl⟩ := List.head?_eq_some_iff.mp hpoint
    exact .intro he

/-- Whether a numeral is a bare point can be computed. -/
instance : DecidablePred IsBarePoint := fun _ => decidable_of_iff _ isBarePoint_iff.symm

/-- Its mantissa is the point. -/
theorem IsBarePoint.hasParts {cs : List Char} (h : IsBarePoint cs) :
    ∃ e, HasParts ['.'] e cs ∧ IsExponent e := by
  obtain @⟨e, he⟩ := h
  have hpoint : IsMantissa ['.'] :=
    @IsMantissa.point [] [] (List.forall_mem_nil _) (List.forall_mem_nil _)
  exact ⟨e, ⟨rfl, hpoint, .inr he⟩, he⟩

/-- The only numerals without a value are bare points with an exponent. -/
theorem HasParts.value?_eq_none_iff {m e cs : List Char} (h : HasParts m e cs) :
    value? cs = none ↔ IsBarePoint cs := by
  rw [value?]
  split
  case isTrue hpoint =>
    obtain rfl := beq_iff_eq.mp hpoint
    refine iff_of_false (by simp) ?_
    rintro ⟨⟨⟩⟩
  case isFalse hpoint =>
    rw [h.read?_eq, Option.map_eq_none_iff, h.read?_eq_none_iff]
    constructor
    · rintro rfl
      obtain ⟨rfl, -, rfl | he⟩ := h
      · exact absurd rfl hpoint
      · exact .intro he
    · intro hbare
      obtain ⟨e', hparts, -⟩ := hbare.hasParts
      exact h.read?_eq_none_iff.mp (hparts.read?_eq_none_iff.mpr rfl)

end Numeral

end CommodoreBasic
