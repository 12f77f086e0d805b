import CommodoreBasic.Proofs.FiniteConstants
import CommodoreBasic.Proofs.FiniteFloats
import CommodoreBasic.Proofs.SpacedTokens

/-!
# Whole numbers in the text of a program

A whole number is written with its decimal digits, and a minus in front of them if it is below zero.
Up to `2 ^ 53` it is read as an expression with exactly that value. Behind an equals sign it may follow
at once, since neither a minus nor a digit makes another operator of the sign.
-/

namespace CommodoreBasic

open CommodoreBasic.Text

/-! ## Expressions -/

/-- The digits of a whole number are a literal with its value. -/
theorem Expr.ofNumeral_toString {n : Nat} (hn : n < 2 ^ 53) :
    Expr.ofNumeral (toString n) = .ok (.literal (.number (Float.ofNat n))) := by
  have hvalue : Numeral.value? (toString n).toList = some (Float.ofNat n) := by
    rw [(LineNumber.spelled_toString n).value?]
    rfl
  rw [Expr.ofNumeral, hvalue]
  dsimp only
  rw [if_pos (Number.isFinite_ofNat hn)]

namespace Expr

/-- A whole number as an expression. -/
def whole : Int → Expr
  | .ofNat n => .literal (.number (Float.ofNat n))
  | .negSucc n => .unary .negate (.literal (.number (Float.ofNat (n + 1))))

/-- The tokens that a whole number is written with. -/
def wholeTokens : Int → List Token
  | .ofNat n => [.numeral (toString n)]
  | .negSucc n => [.operator .minus, .numeral (toString (n + 1))]

/-- A whole number is written as a numeral with its sign. -/
theorem written_whole {n : Int} (hn : n.natAbs < 2 ^ 53) : (whole n).Written (wholeTokens n) := by
  have hliteral {k : Nat} (hk : k < 2 ^ 53) :
      (literal (.number (Float.ofNat k))).Written [.numeral (toString k)] := by
    rw [Written]
    exact ⟨_, ofNumeral_toString hk, rfl⟩
  cases n with
  | ofNat n => exact hliteral hn
  | negSucc n =>
    rw [whole, Written]
    exact ⟨_, hliteral hn, rfl⟩

/-- So it can be written. -/
theorem wellFormed_whole {n : Int} (hn : n.natAbs < 2 ^ 53) : (whole n).WellFormed := by
  have hliteral {k : Nat} (hk : k < 2 ^ 53) : (literal (.number (Float.ofNat k))).WellFormed := by
    rw [WellFormed]
    refine ⟨_, LineNumber.isNumeral_toString k, ?_⟩
    rw [LineNumber.capitals_toString, ofNumeral_toString hk]
  cases n with
  | ofNat n => exact hliteral hn
  | negSucc n =>
    rw [whole, WellFormed]
    exact hliteral hn

end Expr

/-! ## Scanning -/

namespace Token

variable {rest : List Char}

/-- A token of one character is read by itself. -/
theorem lex_next {c : Char} {cs : List Char} {t : Token} (h : next c cs = (t, 0))
    (hblanks : t.isBlanks = false) (hremark : t ≠ keyword .REM) (hdata : t ≠ keyword .DATA) :
    lex (c :: cs) = t :: lex cs := by
  rw [lex, scan, h]
  dsimp only
  rw [if_neg hremark, if_neg hdata, List.drop_zero, List.filter_cons_of_pos (by simp [hblanks]), lex]

/-- A numeral is read up to what ends it. -/
theorem lex_numeral (n : Nat) (hrest : Ends rest) :
    lex ((toString n).toList ++ rest) = numeral (toString n) :: lex rest := by
  have hreads := reads_numeral (LineNumber.isNumeral_toString n)
  rw [LineNumber.capitals_toString] at hreads
  exact lex_word hreads hrest rfl (by simp) (by simp)

/-- A negative number has a minus in front. -/
theorem toList_toString_negSucc (n : Nat) :
    (toString (Int.negSucc n)).toList = '-' :: (toString (n + 1)).toList := by
  have htext : toString (Int.negSucc n) = "-" ++ toString (n + 1) := rfl
  rw [htext, String.toList_append]
  rfl

/-- A whole number is scanned as its tokens. -/
theorem lex_whole (n : Int) (hrest : Ends rest) :
    lex ((toString n).toList ++ rest) = Expr.wholeTokens n ++ lex rest := by
  cases n with
  | ofNat n => exact lex_numeral n hrest
  | negSucc n =>
    have hminus (cs : List Char) : next '-' cs = (operator .minus, 0) := rfl
    rw [toList_toString_negSucc, List.cons_append, lex_next (hminus _) rfl (by simp) (by simp),
      lex_numeral (n + 1) hrest]
    rfl

/-- The first character of a whole number is a minus or a digit. -/
theorem head_toString (n : Int) :
    ∃ c cs, (toString n).toList = c :: cs ∧ (c = '-' ∨ c.isDigit = true) := by
  cases n with
  | ofNat n =>
    obtain ⟨c, cs, hdigits⟩ := List.exists_cons_of_ne_nil (LineNumber.toList_toString_ne_nil n)
    have hc : c.isDigit = true := LineNumber.isDigit_of_mem_toString (hdigits ▸ List.mem_cons_self)
    exact ⟨c, cs, hdigits, .inr hc⟩
  | negSucc n => exact ⟨_, _, toList_toString_negSucc n, .inl rfl⟩

/-- An equals sign in front of a minus or a digit is no part of a longer spelling. -/
theorem crunch?_equal {c : Char} (hc : c = '-' ∨ c.isDigit = true) (cs : List Char) :
    crunch? ('=' :: c :: cs) = some (1, operator .equal) := by
  have hupper : c.toUpper ≠ '<' ∧ c.toUpper ≠ '>' := by
    rcases hc with rfl | hdigit
    · decide
    · rw [toUpper_of_isDigit hdigit]
      constructor <;> rintro rfl <;> cases hdigit
  have hlonger : ∀ spelling ∈ crunchTable, spelling.1.head? = some '=' →
      spelling.1 = ['='] ∨ spelling.1 = ['=', '<'] ∨ spelling.1 = ['=', '>'] := by
    decide +kernel
  have hsame : crunch? ('=' :: c :: cs) = crunch? ['='] := by
    unfold crunch?
    congr 1
    apply List.find?_congr
    rintro ⟨word, t⟩ hmem
    cases word with
    | nil => rfl
    | cons w word =>
      by_cases hw : w = '='
      · subst hw
        rcases hlonger _ hmem rfl with h | h | h <;> cases h
        · rfl
        · simp [isSpelledAt, hupper.1.symm]
        · simp [isSpelledAt, hupper.2.symm]
      · have hne : (w == '='.toUpper) = false := beq_eq_false_iff_ne.mpr hw
        dsimp only
        rw [isSpelledAt, isSpelledAt, hne, Bool.false_and, Bool.false_and]
  rw [hsame]
  rfl

/-- The value of a variable that is set follows the equals sign at once. -/
theorem lex_assigned {x : Char} (halpha : x.isAlpha = true)
    (hcrunch : ∀ cs, crunch? (x :: '=' :: cs) = none) (n : Int) (hrest : Ends rest) :
    lex (x :: '=' :: ((toString n).toList ++ rest)) =
      name (capitals [x]) :: operator .equal :: (Expr.wholeTokens n ++ lex rest) := by
  obtain ⟨c, cs, hdigits, hc⟩ := head_toString n
  obtain ⟨hblank, hdigit, hquote⟩ := kind_of_isAlpha halpha
  have hequal := crunch?_equal hc (cs ++ rest)
  have hname : next x ('=' :: c :: (cs ++ rest)) = (name (capitals [x]), 0) := by
    rw [next, hblank, hdigit, hquote, hcrunch, halpha, nameLength, hequal]
    rfl
  have hsign : next '=' (c :: (cs ++ rest)) = (operator .equal, 0) := by
    rw [next, hequal]
    rfl
  have hlex := lex_whole n hrest
  rw [hdigits, List.cons_append] at hlex ⊢
  rw [lex_next hname rfl (by simp) (by simp), lex_next hsign rfl (by simp) (by simp), hlex]

/-- There is no line end in a whole number. -/
theorem isLineEnd_of_mem_whole (n : Int) : ∀ c ∈ (toString n).toList, isLineEnd c = false := by
  cases n with
  | ofNat n => exact isLineEnd_of_mem_toString n
  | negSucc n =>
    rw [toList_toString_negSucc]
    exact List.forall_mem_cons.mpr ⟨rfl, isLineEnd_of_mem_toString (n + 1)⟩

end Token

/-! ## A program of one line -/

/-- A text without line ends is one line. -/
theorem Program.splitLines_go {cs : List Char} (hcs : ∀ c ∈ cs, isLineEnd c = false)
    (reversed : List Char) (hne : reversed.reverse ++ cs ≠ []) :
    splitLines.go reversed cs = [reversed.reverse ++ cs] := by
  induction cs generalizing reversed with
  | nil =>
    rw [List.append_nil] at hne ⊢
    rw [splitLines.go, if_neg]
    rw [List.isEmpty_iff]
    rintro rfl
    exact hne rfl
  | cons c cs ih =>
    rw [List.forall_mem_cons] at hcs
    have hc : c ≠ '\n' := by
      rintro rfl
      cases hcs.1
    have happend : (c :: reversed).reverse ++ cs = reversed.reverse ++ c :: cs := by
      rw [List.reverse_cons, List.append_assoc, List.singleton_append]
    rw [splitLines.go, ih hcs.2 (c :: reversed) (by rwa [happend]), happend]
    exact hc

/-- A numbered line is a program, with the statements that its words are a form of. -/
theorem Program.parse_line {number : LineNumber} (hnumber : number ≤ LineNumber.greatest)
    {cs : List Char} (hcs : ∀ c ∈ cs, isLineEnd c = false) {statements : List Statement}
    (hwritten : Joined Statement.Written .colon statements (Token.lex cs))
    (hs : ∀ s ∈ statements, s.WellFormed)
    (hremark : ∀ s ∈ statements.dropLast, s.stripIfs ≠ .remark) {text : String}
    (htext : text.toList = (toString number).toList ++ ' ' :: cs) :
    Program.parse text = .ok { lines := [{ number, statements }] } := by
  have hends : ∀ c ∈ text.toList, isLineEnd c = false := by
    rw [htext]
    exact List.forall_mem_append.mpr
      ⟨Token.isLineEnd_of_mem_toString number, List.forall_mem_cons.mpr ⟨rfl, hcs⟩⟩
  obtain ⟨c, ds, hdigits⟩ := List.exists_cons_of_ne_nil (LineNumber.toList_toString_ne_nil number)
  have hc : c.isDigit = true := LineNumber.isDigit_of_mem_toString (hdigits ▸ List.mem_cons_self)
  have hsome : text.toList.all isWhiteSpace = false := by
    rw [htext, hdigits, List.cons_append, List.all_cons,
      (Number.kind_of_isNumeric (Number.isNumeric_of_isDigit hc)).1, Bool.false_and]
  have hlines : (splitLines text.toList).filter (! ·.all isWhiteSpace) = [text.toList] := by
    rw [splitLines, splitLines_go hends [] (by simp [htext]), List.reverse_nil, List.nil_append]
    exact List.filter_cons_of_pos (by rw [hsome]; rfl)
  have hscanned := Token.scanLine_of_splitNumber hends
    (htext ▸ Token.splitNumber_toString hnumber cs)
  have hparse : Statement.parseAll (Token.scanLine text.toList).tokens = .ok statements := by
    change Statement.parseParts ((Token.ofLine text.toList).length + 1)
      (Token.ofLine text.toList) = _
    rw [hscanned.2, Token.lex_blank]
    exact Statement.parseParts_joined hwritten hs hremark _ (Nat.lt_succ_self _)
  unfold Program.parse
  rw [hlines]
  dsimp only
  rw [List.mapM_cons, List.mapM_nil, String.ofList_toList,
    Line.parse_of_parseAll hscanned.1 rfl hparse]
  rfl

end CommodoreBasic
