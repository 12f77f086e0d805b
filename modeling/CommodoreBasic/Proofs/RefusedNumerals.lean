import CommodoreBasic.Proofs.ComparedStatements
import CommodoreBasic.Proofs.LongestNumerals
import CommodoreBasic.Proofs.NumberReaders

/-!
# Numerals that are refused

Of the numerals in a line the bare points with an exponent are refused, and no others. A line that is
refused for a numeral has a bare point in it, and it is read in another way if `0.0` stands there
instead. A line that is not refused is read in the same way then, since it has bare points only where no
number is read: one that stands for a line number leads to another complaint, as `0.0` does.

The parser complains of an invalid number in one place only, where it takes a numeral for an operand. To
say this of whole lines, the reading of a line is compared with that of the line with `0.0` in place of
its bare points. Both take the same way until the first comes upon a bare point and refuses it.
-/

namespace CommodoreBasic

open CommodoreBasic.Parser

namespace Token

/-- The token, or `0.0` in place of a bare point with an exponent. -/
def mend : Token → Token
  | numeral s => if Numeral.IsBarePoint s.toList then numeral "0.0" else numeral s
  | t => t

/-- A run of blanks stays one, and nothing else becomes one. -/
theorem isBlanks_mend (t : Token) : t.mend.isBlanks = t.isBlanks := by
  cases t with
  | numeral s =>
    rw [mend]
    split <;> rfl
  | _ => rfl

/-- Leaving out runs of blanks leaves out the same tokens before and after mending. -/
theorem filter_map_mend (ts : List Token) :
    (ts.map mend).filter (! ·.isBlanks) = (ts.filter (! ·.isBlanks)).map mend := by
  rw [List.filter_map]
  congr 2
  funext t
  exact congrArg (! ·) t.isBlanks_mend

end Token

namespace Expr

/-- The value of a numeral decides whether it is refused. -/
theorem ofNumeral_eq_invalid_iff {s : String} :
    ofNumeral s = .error (.complain .invalidNumber) ↔ Numeral.value? s.toList = none := by
  rw [ofNumeral]
  cases Numeral.value? s.toList with
  | none => exact iff_of_true rfl rfl
  | some x =>
    refine iff_of_false ?_ (by simp)
    dsimp only
    split
    · intro h
      cases h
    · intro h
      cases congrArg (fun r => r.mapError Error.kind) h

/-- A bare point with an exponent is refused. -/
theorem ofNumeral_of_isBarePoint {s : String} (hs : Numeral.IsBarePoint s.toList) :
    ofNumeral s = .error (.complain .invalidNumber) := by
  obtain ⟨e, hparts, -⟩ := hs.hasParts
  exact ofNumeral_eq_invalid_iff.mpr (hparts.value?_eq_none_iff.mpr hs)

end Expr

/-- Neither a bare point nor `0.0` is a line number. -/
theorem Parser.lineNumberOf_of_isBarePoint {s : String} (hs : Numeral.IsBarePoint s.toList) :
    lineNumberOf (.numeral s) = lineNumberOf (.numeral "0.0") := by
  obtain ⟨e, heq⟩ := List.head?_eq_some_iff.mp (Numeral.isBarePoint_iff.mp hs).1
  rw [lineNumberOf, heq]
  rfl

/-! ## Mended lines -/

/-- A line beside the same line with `0.0` in place of bare points. There are such only if `refusal`
holds, and all other numerals have values. The second reading is free once the first has refused a
numeral; otherwise both fail alike, with another complaint. -/
def mended (refusal : Prop) (ts : List Token) : ReadingPair where
  whole := ts
  more := []
  numerals s s' := s = s' ∧ Numeral.value? s.toList ≠ none ∨
    refusal ∧ Numeral.IsBarePoint s.toList ∧ s' = "0.0"
  fails e e' := e = e' ∧ e ≠ .complain .invalidNumber
  excuses e := refusal ∧ e = .complain .invalidNumber
  expr _ := True
  target _ := True
  statement _ := True

variable {refusal : Prop} {ts : List Token}

/-- Mending is fair: the numerals that are changed are refused, and none of them is a line number. -/
theorem fairLine_mended : (mended refusal ts).FairLine where
  follows := closes_nil.follows_zero
  ends := .inl closes_nil
  same he := ⟨rfl, he⟩
  numeral {s s'} hs := by
    rcases hs with ⟨rfl, hvalue⟩ | ⟨hrefusal, hbare, -⟩
    · cases hnumeral : Expr.ofNumeral s with
      | ok e => exact .ok ⟨rfl, trivial⟩
      | error e =>
        refine .error ⟨rfl, fun he => hvalue (Expr.ofNumeral_eq_invalid_iff.mp ?_)⟩
        rw [hnumeral, he]
    · rw [Expr.ofNumeral_of_isBarePoint hbare]
      exact .excused (c := mended refusal ts) ⟨hrefusal, rfl⟩ _
  text _ := trivial
  expr _ _ := trivial
  closes := closes_nil
  lineNumber {s s'} hs := by
    rcases hs with ⟨rfl, -⟩ | ⟨-, hbare, rfl⟩
    · rfl
    · exact lineNumberOf_of_isBarePoint hbare
  missing := .inl rfl
  remark := .inl rfl
  target _ _ := trivial
  statement _ _ _ _ := trivial

/-- Well-formed numerals are mended where they need to be. -/
theorem paired_map_mend {us : List Token} (hts : ∀ s, .numeral s ∈ us → Numeral.WellFormed s.toList)
    (hsuffix : us <:+ ts) : (mended True ts).Paired us (us.map Token.mend) := by
  induction us with
  | nil => exact .done
  | cons t us ih =>
    have ih := ih (fun s hs => hts s (List.mem_cons_of_mem t hs))
      ((List.suffix_cons t us).trans hsuffix)
    rw [List.map_cons]
    cases t with
    | numeral s =>
      obtain ⟨m, e, hparts⟩ := hts s List.mem_cons_self
      rw [Token.mend]
      split
      case isTrue hbare => exact .numeral hsuffix (.inr ⟨trivial, hbare, rfl⟩) ih
      case isFalse hbare =>
        exact .numeral hsuffix (.inl ⟨rfl, hparts.value?_eq_none_iff.not.mpr hbare⟩) ih
    | _ => exact .token hsuffix (by simp) ih

/-- What has been mended has no numerals without a value. -/
theorem value?_ne_none_of_map_mend (hts : ∀ s, .numeral s ∈ ts → Numeral.WellFormed s.toList) :
    ∀ s, .numeral s ∈ ts.map Token.mend → Numeral.value? s.toList ≠ none := by
  intro s hs
  obtain ⟨t, ht, heq⟩ := List.mem_map.mp hs
  cases t with
  | numeral s' =>
    rw [Token.mend] at heq
    split at heq
    case isTrue =>
      cases heq
      have hzero : Numeral.value? "0.0".toList = some (Decimal.toFloat ⟨0, -1⟩) :=
        (Decimal.Spelled.point Decimal.isDigits_zero Decimal.isDigits_zero).value?
      rw [hzero]
      exact Option.some_ne_none _
    case isFalse hbare =>
      cases heq
      obtain ⟨m, e, hparts⟩ := hts s ht
      exact hparts.value?_eq_none_iff.not.mpr hbare
  | _ => cases heq

namespace Statement

/-- The numerals that are left without blanks are among those of the line. -/
theorem numeral_mem_of_filter {s : String} (h : .numeral s ∈ ts.filter (! ·.isBlanks)) :
    .numeral s ∈ ts := (List.mem_filter.mp h).1

/-- Where all numerals have values none is refused. -/
theorem parseAll_ne_invalid (hts : ∀ s, .numeral s ∈ ts → Numeral.value? s.toList ≠ none) :
    parseAll ts ≠ .error (.complain .invalidNumber) := by
  have hnumerals (s : String) (hs : .numeral s ∈ ts.filter (! ·.isBlanks)) :
      (mended False (ts.filter (! ·.isBlanks))).numerals s s :=
    .inl ⟨rfl, hts s (numeral_mem_of_filter hs)⟩
  have hpaired := ReadingPair.paired_append hnumerals List.suffix_rfl
  rw [show (mended False (ts.filter (! ·.isBlanks))).more = [] from rfl, List.append_nil] at hpaired
  have hline := ReadingPair.outcome_parseAll fairLine_mended rfl hpaired
  intro hinvalid
  rw [hinvalid] at hline
  cases hline with
  | error h => exact h.2 rfl
  | excused h => exact h.1

/-- A line is refused for a numeral exactly if it is not read as it would be with `0.0` in place of the
bare points in it. -/
theorem parseAll_eq_invalid_iff (hts : ∀ s, .numeral s ∈ ts → Numeral.WellFormed s.toList) :
    parseAll ts = .error (.complain .invalidNumber) ↔ parseAll ts ≠ parseAll (ts.map Token.mend) := by
  have hpaired := paired_map_mend (fun s hs => hts s (numeral_mem_of_filter hs)) List.suffix_rfl
  rw [← Token.filter_map_mend] at hpaired
  have hline := ReadingPair.outcome_parseAll fairLine_mended rfl hpaired
  have hmended := parseAll_ne_invalid (value?_ne_none_of_map_mend hts)
  constructor
  · intro hinvalid heq
    exact hmended (heq ▸ hinvalid)
  · intro hne
    generalize parseAll ts = x at hline hne ⊢
    generalize parseAll (ts.map Token.mend) = y at hline hne
    cases hline with
    | ok h => exact absurd (congrArg Except.ok h.1) hne
    | error h => exact absurd (congrArg Except.error h.1) hne
    | excused h => exact congrArg Except.error h.2

/-- A line that is refused for a numeral has a bare point in it. -/
theorem exists_isBarePoint_of_parseAll (hts : ∀ s, .numeral s ∈ ts → Numeral.WellFormed s.toList)
    (h : parseAll ts = .error (.complain .invalidNumber)) :
    ∃ s, .numeral s ∈ ts ∧ Numeral.IsBarePoint s.toList := by
  by_contra hnone
  refine parseAll_ne_invalid (fun s hs hvalue => hnone ⟨s, hs, ?_⟩) h
  obtain ⟨m, e, hparts⟩ := hts s hs
  exact hparts.value?_eq_none_iff.mp hvalue

end Statement

namespace Numeral

/-- The numerals of a line are well-formed. -/
theorem wellFormed_of_mem_scanLine {line : List Char} {s : String}
    (h : .numeral s ∈ (Token.scanLine line).tokens) : WellFormed s.toList := by
  obtain ⟨hne, hlength⟩ := Token.isNumeral_of_mem_scanLine h
  have htake : length s.toList ≠ 0 → WellFormed (s.toList.take (length s.toList)) := wellFormed_take
  rw [hlength, List.take_length] at htake
  exact htake fun hzero => hne (List.eq_nil_of_length_eq_zero hzero)

/-- The longest numeral at the start of a text is taken. A numeral with a digit before its exponent reads
as a number. Of the numerals in a line the bare points with an exponent are refused, and no others; the
whole line is refused for a numeral exactly if it has such bare points and they make a difference to how
it is read. -/
theorem longest_and_refused :
    (∀ cs : List Char, (∃ w, IsLongest WellFormed cs w ∧ w.length = length cs) ∨
        length cs = 0 ∧ ∀ v, v <+: cs → ¬ WellFormed v) ∧
      (∀ m e cs : List Char, HasParts m e cs → (∃ c ∈ m, c.isDigit = true) →
        ∃ x, Number.read? cs = some x) ∧
      (∀ (line : List Char) (s : String), .numeral s ∈ (Token.scanLine line).tokens →
        (Expr.ofNumeral s = .error (.complain .invalidNumber) ↔ IsBarePoint s.toList)) ∧
      ∀ line : List Char,
        (Statement.parseAll (Token.scanLine line).tokens = .error (.complain .invalidNumber) →
          ∃ s, .numeral s ∈ (Token.scanLine line).tokens ∧ IsBarePoint s.toList) ∧
        (Statement.parseAll (Token.scanLine line).tokens = .error (.complain .invalidNumber) ↔
          Statement.parseAll (Token.scanLine line).tokens ≠
            Statement.parseAll ((Token.scanLine line).tokens.map Token.mend)) := by
  refine ⟨isLongest_take, fun m e cs => HasParts.exists_read?, fun line s hs => ?_, fun line => ?_⟩
  · obtain ⟨m, e, hparts⟩ := wellFormed_of_mem_scanLine hs
    rw [Expr.ofNumeral_eq_invalid_iff, hparts.value?_eq_none_iff]
  · have hnumerals (s : String) : .numeral s ∈ (Token.scanLine line).tokens → WellFormed s.toList :=
      wellFormed_of_mem_scanLine
    exact ⟨Statement.exists_isBarePoint_of_parseAll hnumerals,
      Statement.parseAll_eq_invalid_iff hnumerals⟩

/-- An exponent that lacks its digits is left over, and a bare point is refused as the value of a
variable. -/
theorem longest_and_refused_incomplete :
    (∃ w, IsLongest WellFormed "5.E+X".toList w ∧ w.length = 2) ∧
      (∃ x, Number.read? "5.".toList = some x) ∧
      (Token.scanLine "10 X=.E5".toList).tokens = [.name "X", .operator .equal, .numeral ".E5"] ∧
      Expr.ofNumeral ".E5" = .error (.complain .invalidNumber) ∧
      Statement.parseAll [.name "X", .operator .equal, .numeral ".E5"] ≠
        Statement.parseAll [.name "X", .operator .equal, .numeral "0.0"] := by
  obtain ⟨hlongest, hread, hnumeral, hline⟩ := longest_and_refused
  have hlength : length "5.E+X".toList = 2 := by decide +kernel
  have hmantissa : IsMantissa ['5', '.'] :=
    @IsMantissa.point ['5'] [] (List.forall_mem_singleton.mpr rfl) (List.forall_mem_nil _)
  have hparts : HasParts ['5', '.'] [] "5.".toList := ⟨rfl, hmantissa, .inl rfl⟩
  have hscan : (Token.scanLine "10 X=.E5".toList).tokens =
      [.name "X", .operator .equal, .numeral ".E5"] := by decide +kernel
  have hrefused : Expr.ofNumeral ".E5" = .error (.complain .invalidNumber) :=
    (hnumeral "10 X=.E5".toList ".E5" (by rw [hscan]; simp)).mpr (by decide +kernel)
  have hparse : Statement.parseAll [.name "X", .operator .equal, .numeral ".E5"] =
      .error (.complain .invalidNumber) := rfl
  have hmend : [.name "X", .operator .equal, .numeral ".E5"].map Token.mend =
      [.name "X", .operator .equal, .numeral "0.0"] := by decide +kernel
  have hiff := (hline "10 X=.E5".toList).2
  rw [hscan, hmend] at hiff
  refine ⟨?_, hread _ _ _ hparts ⟨'5', List.mem_cons_self, rfl⟩, hscan, hrefused, hiff.mp hparse⟩
  have hcases := hlongest "5.E+X".toList
  rw [hlength] at hcases
  exact hcases.resolve_right fun h => absurd h.1 (by decide)

end Numeral

end CommodoreBasic
