import CommodoreBasic.Number.Shortest
import CommodoreBasic.Proofs.Words
import Mathlib.Data.List.TakeWhile

/-!
# Decimals as texts

A decimal is written out in full: digits, or digits, a point and digits again. Whatever reads numbers
takes such a text as a whole and finds in it the decimal that it spells. That is the decimal which was
written, except that a whole number is written with its last zeros and these are read as digits.
-/

namespace CommodoreBasic

namespace Decimal

/-- The characters are digits, and there are some. -/
structure IsDigits (cs : List Char) : Prop where
  ne_nil : cs ≠ []
  isDigit : ∀ c ∈ cs, c.isDigit = true

/-- The characters spell the decimal: digits, or digits on both sides of a point. -/
inductive Spelled : Decimal → List Char → Prop where
  | whole {ds : List Char} (hds : IsDigits ds) : Spelled ⟨ofDigits ds, 0⟩ ds
  | point {ds ps : List Char} (hds : IsDigits ds) (hps : IsDigits ps) :
    Spelled ⟨ofDigits (ds ++ ps), -ps.length⟩ (ds ++ '.' :: ps)

/-! ## Writing -/

/-- A number is written in digits. -/
theorem isDigits_toDigits (n : Nat) : IsDigits (Nat.toDigits 10 n) where
  ne_nil := Nat.toDigits_ne_nil
  isDigit _ hc := Nat.isDigit_of_mem_toDigits (by decide) (by decide) hc

/-- What is written in digits is read as the number. -/
theorem ofDigits_toDigits (n : Nat) : ofDigits (Nat.toDigits 10 n) = n := by
  rw [ofDigits, ← Nat.ofDigitChars_eq_foldl, Nat.ofDigitChars_ten_toDigits]

/-- A zero is a row of digits. -/
theorem isDigits_zero : IsDigits ['0'] :=
  ⟨List.cons_ne_nil _ _, List.forall_mem_singleton.mpr rfl⟩

/-- It spells nothing. -/
theorem spelled_zero : Spelled ⟨0, 0⟩ ['0'] := .whole isDigits_zero

/-- Zeros may stand behind digits. -/
theorem IsDigits.append_zeros {cs : List Char} (h : IsDigits cs) (n : Nat) :
    IsDigits (cs ++ List.replicate n '0') where
  ne_nil := List.append_ne_nil_of_left_ne_nil h.ne_nil _
  isDigit := List.forall_mem_append.mpr
    ⟨h.isDigit, fun c hc => by rw [List.eq_of_mem_replicate hc]; rfl⟩

/-- Zeros may stand before digits. -/
theorem IsDigits.zeros_append {cs : List Char} (h : IsDigits cs) (n : Nat) :
    IsDigits (List.replicate n '0' ++ cs) where
  ne_nil := List.append_ne_nil_of_right_ne_nil _ h.ne_nil
  isDigit := List.forall_mem_append.mpr
    ⟨fun c hc => by rw [List.eq_of_mem_replicate hc]; rfl, h.isDigit⟩

/-- Zeros behind digits multiply by ten. -/
theorem ofDigits_append_zeros (cs : List Char) (n : Nat) :
    ofDigits (cs ++ List.replicate n '0') = ofDigits cs * Nat.pow 10 n := by
  induction n with
  | zero => rw [List.replicate_zero, List.append_nil]; exact (Nat.mul_one _).symm
  | succ n ih =>
    rw [ofDigits] at ih ⊢
    rw [List.replicate_succ', ← List.append_assoc, List.foldl_append, ih]
    change 10 * (ofDigits cs * Nat.pow 10 n) + 0 = ofDigits cs * (Nat.pow 10 n * 10)
    rw [Nat.add_zero, Nat.mul_comm, Nat.mul_assoc]

/-- Zeros before digits do not matter. -/
theorem ofDigits_zeros_append (n : Nat) (cs : List Char) :
    ofDigits (List.replicate n '0' ++ cs) = ofDigits cs := by
  induction n with
  | zero => rfl
  | succ n ih => exact ih

/-- A part of digits is made of digits, unless it is empty. -/
theorem IsDigits.part {cs part : List Char} (h : IsDigits cs) (hpart : part ⊆ cs)
    (hlength : 0 < part.length) : IsDigits part where
  ne_nil := List.ne_nil_of_length_pos hlength
  isDigit c hc := h.isDigit c (hpart hc)

/-- Digits around a point spell the number that all of them make, shifted by those behind it. -/
theorem spelled_point {d : Decimal} {ds ps : List Char} (hds : IsDigits ds) (hps : IsDigits ps)
    (hdigits : ofDigits (ds ++ ps) = d.digits) (hexponent : d.exponent = -ps.length) :
    Spelled d (ds ++ '.' :: ps) := by
  obtain ⟨digits, exponent⟩ := d
  subst hdigits hexponent
  exact .point hds hps

/-- The text of a decimal spells it, or spells it with zeros in place of an exponent. -/
theorem spelled_text (d : Decimal) :
    Spelled d d.text.toList ∨
      0 ≤ d.exponent ∧ Spelled ⟨d.digits * Nat.pow 10 d.exponent.toNat, 0⟩ d.text.toList := by
  have hds := isDigits_toDigits d.digits
  have hvalue := ofDigits_toDigits d.digits
  unfold text
  generalize Nat.toDigits 10 d.digits = ds at hds hvalue ⊢
  generalize hplaces : (-d.exponent).toNat = places
  dsimp only
  split
  case isTrue hwhole =>
    refine .inr ⟨by omega, ?_⟩
    rw [String.toList_ofList, ← hvalue, ← ofDigits_append_zeros]
    exact .whole (hds.append_zeros _)
  case isFalse hpoint =>
    refine .inl ?_
    split
    case isTrue hshort =>
      rw [String.toList_ofList]
      refine spelled_point (hds.part (List.take_subset _ _) ?_) (hds.part (List.drop_subset _ _) ?_) ?_ ?_
      · rw [List.length_take]
        omega
      · rw [List.length_drop]
        omega
      · rw [List.take_append_drop, hvalue]
      · rw [List.length_drop]
        omega
    case isFalse hlong =>
      rw [String.toList_ofList]
      refine spelled_point isDigits_zero (hds.zeros_append _) ?_ ?_
      · exact (ofDigits_zeros_append (places - ds.length + 1) ds).trans hvalue
      · rw [List.length_append, List.length_replicate]
        omega

/-! ## Reading -/

/-- A decimal begins with a digit. -/
theorem Spelled.head {d : Decimal} {cs : List Char} (h : Spelled d cs) :
    ∃ c rest, cs = c :: rest ∧ c.isDigit = true := by
  cases h with
  | whole hds =>
    obtain ⟨c, rest, rfl⟩ := List.exists_cons_of_ne_nil hds.ne_nil
    exact ⟨c, rest, rfl, hds.isDigit c List.mem_cons_self⟩
  | point hds hps =>
    obtain ⟨c, rest, rfl⟩ := List.exists_cons_of_ne_nil hds.ne_nil
    exact ⟨c, _, rfl, hds.isDigit c List.mem_cons_self⟩

/-- Only digits and a point stand in the text. -/
theorem Spelled.mem {d : Decimal} {cs : List Char} (h : Spelled d cs) :
    ∀ c ∈ cs, c.isDigit = true ∨ c = '.' := by
  cases h with
  | whole hds => exact fun c hc => .inl (hds.isDigit c hc)
  | point hds hps =>
    refine List.forall_mem_append.mpr ⟨fun c hc => .inl (hds.isDigit c hc), ?_⟩
    exact List.forall_mem_cons.mpr ⟨.inr rfl, fun c hc => .inl (hps.isDigit c hc)⟩

/-- Digits are taken as far as they go. -/
theorem span_digits {ds rest : List Char} (hds : ∀ c ∈ ds, c.isDigit = true)
    (hrest : ∀ c, rest.head? = some c → c.isDigit = false) :
    (ds ++ rest).takeWhile Char.isDigit = ds ∧ (ds ++ rest).dropWhile Char.isDigit = rest := by
  rw [List.takeWhile_append_of_pos hds, List.dropWhile_append_of_pos hds]
  cases rest with
  | nil => exact ⟨List.append_nil ds, rfl⟩
  | cons c rest =>
    have hc : ¬ c.isDigit = true := by simp [hrest c rfl]
    rw [List.takeWhile_cons_of_neg hc, List.dropWhile_cons_of_neg hc]
    exact ⟨List.append_nil ds, rfl⟩

/-- The exponent that stands behind the digits of a decimal, zero if there is none. -/
def shift? : List Char → Option Int
  | [] => some 0
  | c :: cs => if c == 'e' || c == 'E' then exponent? cs else none

/-- Digits without a point are read as a whole number with an exponent. -/
theorem read?_whole {ds rest : List Char} (hds : ∀ c ∈ ds, c.isDigit = true)
    (hrest : ∀ c, rest.head? = some c → c.isDigit = false ∧ c ≠ '.') :
    read? (ds ++ rest) =
      if ds.isEmpty then none else (shift? rest).map fun e => ⟨ofDigits ds, e⟩ := by
  obtain ⟨htake, hdrop⟩ := span_digits hds fun c hc => (hrest c hc).1
  cases rest with
  | nil =>
    unfold read?
    rw [htake, hdrop]
    simp [shift?]
  | cons c rest =>
    have hpoint := (hrest c rfl).2
    unfold read?
    rw [htake, hdrop]
    simp [shift?, hpoint]

/-- Digits around a point are read as one number, whose exponent is less by those behind the point. -/
theorem read?_point {ds ps rest : List Char} (hds : ∀ c ∈ ds, c.isDigit = true)
    (hps : ∀ c ∈ ps, c.isDigit = true) (hrest : ∀ c, rest.head? = some c → c.isDigit = false) :
    read? (ds ++ '.' :: (ps ++ rest)) =
      if ds.isEmpty && ps.isEmpty then none
      else (shift? rest).map fun e => ⟨ofDigits (ds ++ ps), e - ps.length⟩ := by
  obtain ⟨htake, hdrop⟩ : (ds ++ '.' :: (ps ++ rest)).takeWhile Char.isDigit = ds ∧
      (ds ++ '.' :: (ps ++ rest)).dropWhile Char.isDigit = '.' :: (ps ++ rest) :=
    span_digits hds fun c hc => by cases hc; rfl
  obtain ⟨htake', hdrop'⟩ := span_digits hps hrest
  unfold read?
  simp only [htake, hdrop, htake', hdrop']
  cases rest <;> rfl

/-- The decimal that is spelled is read. -/
theorem Spelled.read? {d : Decimal} {cs : List Char} (h : Spelled d cs) :
    Decimal.read? cs = some d := by
  cases h with
  | whole hds =>
    have hempty : cs.isEmpty = false := List.isEmpty_eq_false_iff.mpr hds.ne_nil
    rw [← List.append_nil cs, read?_whole hds.isDigit (by simp), hempty, List.append_nil]
    rfl
  | @point ds ps hds hps =>
    have hempty : ds.isEmpty = false := List.isEmpty_eq_false_iff.mpr hds.ne_nil
    rw [← List.append_nil ps, read?_point hds.isDigit hps.isDigit (by simp), hempty, List.append_nil]
    simp [shift?]

end Decimal

/-- A digit has no other case. -/
theorem Token.toLower_of_isDigit {c : Char} (h : c.isDigit = true) : c.toLower = c := by
  delta Char.toLower
  simp [Char.isDigit, UInt32.le_iff_toNat_le] at h ⊢
  omega

/-- What begins with a digit or a point has no sign and is not the name of a number. -/
theorem Number.read?_of_start {c : Char} (hc : (c.isDigit || c == '.') = true) (cs : List Char) :
    Number.read? (c :: cs) = (Decimal.read? (c :: cs)).map Decimal.toFloat := by
  have hne {x : Char} (hx : (x.isDigit || x == '.') = false) : c ≠ x := by
    rintro rfl
    rw [hc] at hx
    cases hx
  have hlower : c.toLower = c := by
    rw [Bool.or_eq_true, beq_iff_eq] at hc
    rcases hc with hc | rfl
    · exact Token.toLower_of_isDigit hc
    · rfl
  have hword (word : String)
      (hletter : word.toList.head?.any (fun x => x.isDigit || x == '.') = false) :
      (String.ofList ((c :: cs).map Char.toLower) == word) = false := by
    rw [beq_eq_false_iff_ne]
    rintro rfl
    rw [String.toList_ofList, List.map_cons, hlower, List.head?_cons, Option.any_some, hc] at hletter
    cases hletter
  unfold Number.read?
  split
  · next heq => exact absurd (List.cons.inj heq).1 (hne rfl)
  · next heq => exact absurd (List.cons.inj heq).1 (hne rfl)
  · unfold Number.readUnsigned?
    dsimp only
    rw [hword "inf" rfl, hword "infinity" rfl, hword "nan" rfl]
    rfl

/-- A decimal that is spelled out has its value as a numeral. -/
theorem Decimal.Spelled.value? {d : Decimal} {cs : List Char} (h : Spelled d cs) :
    Numeral.value? cs = some d.toFloat := by
  have hread := h.read?
  obtain ⟨c, rest, rfl, hc⟩ := h.head
  have hpoint : (c :: rest == ['.']) = false := by
    rw [beq_eq_false_iff_ne]
    rintro ⟨⟩
    cases hc
  rw [Numeral.value?, hpoint, if_neg Bool.false_ne_true, Number.read?_of_start (by rw [hc]; rfl),
    hread, Option.map_some]

namespace Numeral

/-- The digits at the start belong to the mantissa. -/
theorem mantissaLength_digits {ds : List Char} (hds : ∀ c ∈ ds, c.isDigit = true) (seenPoint : Bool)
    (rest : List Char) :
    mantissaLength seenPoint (ds ++ rest) = ds.length + mantissaLength seenPoint rest := by
  induction ds with
  | nil => rw [List.nil_append, List.length_nil, Nat.zero_add]
  | cons c ds ih =>
    obtain ⟨hc, hds⟩ := List.forall_mem_cons.mp hds
    rw [List.cons_append, mantissaLength, if_pos hc, ih hds, List.length_cons]
    omega

/-- All of a decimal without an exponent is its mantissa. -/
theorem mantissaLength_spelled {d : Decimal} {cs : List Char} (h : d.Spelled cs) :
    mantissaLength false cs = cs.length := by
  cases h with
  | whole hds =>
    have hlength := mantissaLength_digits hds.isDigit false []
    rwa [List.append_nil] at hlength
  | @point ds ps hds hps =>
    have hplaces := mantissaLength_digits hps.isDigit true []
    rw [List.append_nil] at hplaces
    have hpoint : mantissaLength false ('.' :: ps) = mantissaLength true ps + 1 := rfl
    rw [mantissaLength_digits hds.isDigit, hpoint, hplaces, List.length_append, List.length_cons]
    rfl

end Numeral

/-- The text of a decimal is a numeral. -/
theorem Decimal.Spelled.isNumeral {d : Decimal} {cs : List Char} (h : Spelled d cs) :
    Token.IsNumeral cs := by
  obtain ⟨c, rest, hcs, -⟩ := h.head
  have hne : cs ≠ [] := hcs ▸ List.cons_ne_nil c rest
  have hexponent : Numeral.exponentLength (cs.drop cs.length) = 0 := by
    rw [List.drop_length]
    rfl
  refine ⟨hne, ?_⟩
  rw [Numeral.length, Numeral.mantissaLength_spelled h]
  generalize cs.length = length at hexponent
  cases length with
  | zero => rfl
  | succ n => exact congrArg (n + 1 + ·) hexponent

end CommodoreBasic
